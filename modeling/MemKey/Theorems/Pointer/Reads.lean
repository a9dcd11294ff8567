import MemKey.Theorems.Pointer.Copies

/-! The functions that read, in memory: they leave what they read as it is and reply what those of the model do; what
    they copy is all that they leave besides. -/

namespace MemKey.Pointer
open Probing Memory Outcome Linked

/-! ### Lists -/

section List
variable {m n f : Owned} {p res : ℕ} {k N : ℕ} {prev : Option ℕ} {cells : List (ℕ × ℕ × Bytes)}
  {value : Bytes} {ls : CList}

theorem listIndex_does (id : Int) : Does (listIndex p id) (listAt p cells) fun r m =>
    r = entry (cells.drop id.toNat) none ∧ m = listAt p cells :=
  .seq (.loadAs rfl rfl (does_listSkip _ (add_comm ..) ⟨rfl, rfl⟩))

theorem listPos_loop_does {i : Int} {fuel : ℕ} (hm : m = nodesAt prev cells none + n) (hfuel : cells.length < fuel) :
    Does (listPos.loop value (entry cells none) i fuel) m fun r m' =>
      r = ((texts cells).findIdx? (· = value)).elim (-1) (fun j => i + j) ∧ m' = m := by
  induction cells generalizing prev n i fuel with
  | nil =>
    obtain ⟨fuel, rfl⟩ : ∃ j, fuel = j + 1 := ⟨fuel - 1, by omega⟩
    exact .pure ⟨rfl, rfl⟩
  | cons c cells ih =>
    obtain ⟨a, v, s⟩ := c
    obtain ⟨fuel, rfl⟩ : ∃ j, fuel = j + 1 := ⟨fuel - 1, by omega⟩
    have hnode : m = own a (.node ⟨v, entry cells none, prev⟩) + (own v (.chars s) + (nodesAt (some a) cells none + n)) := by
      rw [hm, nodesAt, add_assoc, add_assoc]
    have hrest : m = nodesAt (some a) cells none + (own a (.node ⟨v, entry cells none, prev⟩) + (own v (.chars s) + n)) := by
      rw [hnode]
      abel
    refine .seq (.loadAs hnode rfl (.seq (.loadAs (hnode.trans (add_left_comm ..)) rfl ?_)))
    have htexts : texts ((a, v, s) :: cells) = s :: texts cells := rfl
    rw [htexts, List.findIdx?_cons]
    by_cases hs : s = value
    · rw [if_pos hs, if_pos (decide_eq_true hs)]
      exact .pure ⟨by simp, rfl⟩
    · rw [if_neg hs, if_neg (mt of_decide_eq_true hs)]
      refine (ih hrest (by simpa using hfuel)).mono ?_
      rintro _ _ ⟨rfl, rfl⟩
      refine ⟨?_, rfl⟩
      cases (texts cells).findIdx? (· = value) with
      | none => rfl
      | some j =>
        simp only [Option.elim, Option.map_some]
        push_cast
        ring

theorem listPos_does {r : Int} (h : Mirrors ls cells) (hpos : MemKey.listPos ls value = .ok r) :
    Does (listPos p value) (listAt p cells) fun r' m => r' = r ∧ m = listAt p cells := by
  obtain ⟨us, hrep, hus⟩ := h
  have hspec := listPos_spec hrep value
  rw [hus] at hspec
  cases hpos.symm.trans hspec
  refine .seq (.loadAs rfl rfl ((listPos_loop_does (add_comm ..) (by simp)).mono ?_))
  rintro _ _ ⟨rfl, rfl⟩
  refine ⟨?_, rfl⟩
  cases (texts cells).findIdx? (· = value) with
  | none => rfl
  | some j => exact Int.zero_add _

theorem does_rangeSkip {Q : Option ℕ → Owned → Prop} (k : ℕ) (hk : k ≤ cells.length) (hm : m = nodesAt prev cells none + n)
    (h : Q (entry (cells.drop k) none) m) : Does (listRange.skip (entry cells none) k) m Q := by
  induction k generalizing prev cells n with
  | zero => exact .pure h
  | succ k ih =>
    cases cells with
    | nil => simp at hk
    | cons c cells =>
      obtain ⟨a, v, s⟩ := c
      rw [nodesAt, add_assoc] at hm
      have hrest : m = nodesAt (some a) cells none +
          (own a (.node ⟨v, entry cells none, prev⟩) + (own v (.chars s) + n)) := by
        rw [hm]
        abel
      exact .seq (.pure (.seq (.loadAs hm rfl (ih (by simpa using hk) hrest h))))

/-- The loop copies the strings of the next `k` nodes. -/
theorem rangeTake_does (cs : List (ℕ × Bytes)) (hk : k ≤ cells.length) (hm : m = nodesAt prev cells none + f)
    (hroom : cs.length + k < N) :
    Does (listRange.take res cs.length (entry cells none) k) (m + copiesAt res N cs) fun i m' =>
      ∃ cs', i = cs'.length ∧ m' = m + copiesAt res N cs' ∧ cs'.length < N ∧
        cs'.map Prod.snd = cs.map Prod.snd ++ (texts cells).take k := by
  induction k generalizing prev cells f cs with
  | zero => exact .pure ⟨cs, rfl, rfl, hroom, by simp⟩
  | succ k ih =>
    cases cells with
    | nil => simp at hk
    | cons c cells =>
      obtain ⟨a, v, s⟩ := c
      have hnode : m + copiesAt res N cs = own a (.node ⟨v, entry cells none, prev⟩) +
          (own v (.chars s) + (nodesAt (some a) cells none + f + copiesAt res N cs)) := by
        rw [hm, nodesAt]
        abel
      have hrest : m = nodesAt (some a) cells none +
          (own a (.node ⟨v, entry cells none, prev⟩) + (own v (.chars s) + f)) := by
        rw [hm, nodesAt]
        abel
      refine .seq (.pure (.seq (.loadAs hnode rfl (.seq (.loadAs (hnode.trans (add_left_comm ..)) rfl ?_)))))
      refine .seq (does_copyTo (by omega) fun b => ?_)
      have hgo := ih (cs ++ [(b, s)]) (by simpa using hk) hrest (by simp; omega)
      rw [List.length_append, List.length_singleton] at hgo
      refine hgo.mono ?_
      rintro _ _ ⟨cs', rfl, rfl, hlt, hcs'⟩
      exact ⟨cs', rfl, rfl, hlt, by rw [hcs']; simp [texts]⟩

theorem listAt_node (xs ys : List (ℕ × ℕ × Bytes)) {a v : ℕ} {s : Bytes} : ∃ d rest,
    listAt p (xs ++ (a, v, s) :: ys) = own a (.node d) + (own v (.chars s) + rest) ∧ d.value = v := by
  simp only [listAt, nodesAt_append, nodesAt, entry_append, entry_cons, exit_append, exit_cons]
  refine ⟨⟨v, entry ys none, exit none xs⟩,
    own p (.list ⟨(xs ++ (a, v, s) :: ys).length, entry xs (some a), exit (some a) ys⟩) +
      (nodesAt none xs (some a) + nodesAt (some a) ys none), ?_, rfl⟩
  abel

/-- Between indices of the list, in order. -/
theorem listRange_does {b e : Int} {l : List Bytes} (h : Mirrors ls cells) (hb : 0 ≤ b) (hbe : b ≤ e) (he : e < ls.len)
    (hrange : MemKey.listRange ls b e = .ok l) : Does (listRange p b e) (listAt p cells) fun res m =>
      ∃ n cs, m = listAt p cells + copiesAt res n cs ∧ cs.length < n ∧ cs.map Prod.snd = l := by
  obtain ⟨us, hrep, hus⟩ := h
  have hlen : us.length = cells.length := by
    have := congrArg List.length hus
    rwa [List.length_map, texts, List.length_map] at this
  obtain ⟨b, rfl⟩ := Int.eq_ofNat_of_zero_le hb
  obtain ⟨e, rfl⟩ := Int.eq_ofNat_of_zero_le (hb.trans hbe)
  have hcells : e < cells.length := by
    have := hrep.len
    omega
  cases hrange.symm.trans (listRange_spec hrep (by omega) (by omega))
  have hdrop : nodesAt none cells none = nodesAt none (cells.take b) (entry (cells.drop b) none) +
      nodesAt (exit none (cells.take b)) (cells.drop b) none := by
    rw [← nodesAt_append, List.take_append_drop]
  refine .seq (.loadAs rfl rfl (.seq ((does_callocCells rfl).mono ?_)))
  rintro res _ rfl
  have hcount : ((e : Int) + 1 - max (b : Int) 0).toNat = e + 1 - b := by omega
  have hskip : listAt p cells + copiesAt res ((e : Int) - b + 2).toNat [] = nodesAt none cells none +
      (own p (.list ⟨cells.length, entry cells none, exit none cells⟩) + copiesAt res ((e : Int) - b + 2).toNat []) := by
    rw [listAt]
    abel
  have htake : listAt p cells = nodesAt (exit none (cells.take b)) (cells.drop b) none +
      (own p (.list ⟨cells.length, entry cells none, exit none cells⟩) +
        nodesAt none (cells.take b) (entry (cells.drop b) none)) := by
    rw [listAt, hdrop]
    abel
  refine .seq (does_rangeSkip b (by omega) hskip (.seq ?_))
  rw [hcount]
  refine (rangeTake_does [] (by rw [List.length_drop]; omega) htake (by simp; omega)).mono ?_
  rintro _ _ ⟨cs, rfl, rfl, hlt, hcs⟩
  refine .seq (does_setNull hlt (.pure ⟨_, cs, rfl, hlt, ?_⟩))
  rw [hcs, List.map_take, List.map_drop, hus]
  simp [texts]

end List

/-! ### Tables -/

section Table
variable {α : Type} {E : Entries α} {mode : IntMode} {p : ℕ} {m : Owned}

/-- A table by its slots: each live one has the address of its entry and the entry. -/
theorem IsTable.slots {t : Table α} (h : IsTable E p t m) : ∃ (arr : ℕ) (zs : List (Slot (ℕ × α))) (f : Owned),
    m = own p (.table ⟨t.size, t.used, arr⟩) + (own arr (.array (zs.map (Slot.map Prod.fst))) + f) ∧
    zs.map (Slot.map Prod.snd) = t.slots ∧ zs.length = t.size ∧
    ∀ z ∈ entries zs, ∃ blocks rest, E.Own z.1 z.2 blocks ∧ m = blocks + rest := by
  obtain ⟨arr, gs, rfl, hslots, hlen⟩ := h
  refine ⟨arr, gs.map (Slot.map fun g => (g.addr, g.entry)), blocksOf gs, ?_, ?_, by rwa [List.length_map], ?_⟩
  · rw [tableAt, map_map_slots]
    rfl
  · rw [map_map_slots, hslots]
    rfl
  · intro z hz
    rw [entries_map] at hz
    obtain ⟨g, hg, rfl⟩ := List.mem_map.mp hz
    obtain ⟨ix, hix⟩ := mem_entries.mp hg
    obtain ⟨rest, hrest⟩ := tableAt_entry (p := p) (t := ⟨t.size, t.used, arr⟩) hix
    exact ⟨g.blocks, rest, g.own, hrest⟩

/-- The same with the values of the items. -/
theorem IsHtable.slots {R : Values} {ht : HashTable Value} (h : IsHtable R p ht m) :
    ∃ (arr : ℕ) (zs : List (Slot (ℕ × HashTableItem Value))) (f : Owned),
      m = own p (.table ⟨ht.size, ht.used, arr⟩) + (own arr (.array (zs.map (Slot.map Prod.fst))) + f) ∧
      zs.map (Slot.map Prod.snd) = ht.slots ∧ zs.length = ht.size ∧
      ∀ z ∈ entries zs, ∃ (k : ℕ) (v : Held R) (rest : Owned), z.2.type = v.type ∧ z.2.value = v.value ∧
        m = own z.1 (.item ⟨v.type, k, some v.ptr⟩) + (own k (.chars z.2.key) + (v.blocks + rest)) := by
  obtain ⟨g, n, rfl, hraw, rfl⟩ := h
  obtain ⟨arr, zs, f, hm, hslots, hlen, hown⟩ := hraw.slots
  obtain ⟨ws, rfl, hws, hpairs⟩ := exists_pairs hslots
  refine ⟨arr, ws.map (Slot.map fun w => (w.1.1, w.2.item)), f + heldBlocks (g.entries.map Binding.held), ?_, ?_, ?_, ?_⟩
  · rw [hm, map_map_slots, map_map_slots, add_assoc, add_assoc]
    rfl
  · have hitems : (g.map Binding.item).slots = g.slots.map (Slot.map Binding.item) := rfl
    rw [hitems, ← hws, map_map_slots, map_map_slots]
    rfl
  · rw [List.length_map] at hlen ⊢
    exact hlen
  · intro z hz
    rw [entries_map] at hz
    obtain ⟨⟨⟨q, a⟩, b⟩, hw, rfl⟩ := List.mem_map.mp hz
    obtain rfl : a = b.raw := hpairs _ hw
    have hz' : (q, b.raw) ∈ entries (ws.map (Slot.map Prod.fst)) := by
      rw [entries_map]
      exact List.mem_map_of_mem (f := Prod.fst) hw
    have hb : b ∈ g.entries := by
      rw [Table.entries, ← hws, entries_map]
      exact List.mem_map_of_mem (f := Prod.snd) hw
    obtain ⟨_, rest, ⟨k, rfl⟩, hn⟩ := hown _ hz'
    obtain ⟨xs, ys, hsplit⟩ := List.append_of_mem hb
    have hperm : g.entries.Perm (b :: (xs ++ ys)) := hsplit ▸ List.perm_middle
    refine ⟨k, b.held, rest + heldBlocks ((xs ++ ys).map Binding.held), rfl, rfl, ?_⟩
    rw [hn, heldBlocks_perm hperm, List.map_cons, heldBlocks_cons]
    simp only [Binding.raw, Binding.item]
    abel

end Table

/-! ### Sets -/

section Sets
variable {mode : IntMode} {p : ℕ} {st : CSet} {m : Owned} {key : Bytes} {r : Bool}

theorem setIsmember_does (h : IsSet p st m) (hmem : MemKey.setIsmember mode st key = .ok r) :
    Does (setIsmember mode p key) m fun r' m' => r' = r ∧ m' = m := by
  obtain ⟨s, hfind, heq⟩ := bind_eq_ok.mp hmem
  cases heq
  obtain ⟨items, gs, rfl, hslots, -⟩ := h
  refine .seq ((find_does (t := ⟨st.size, st.used, items⟩) hslots rfl hfind).mono ?_)
  rintro r _ ⟨rfl, hr⟩
  refine .pure ⟨?_, rfl⟩
  cases hr <;> rfl

/-- The array has a slot for every slot of the set, and one more. -/
theorem setMembers_does (h : IsSet p st m) : Does (setMembers p) m fun res m' =>
    ∃ n cs, m' = m + copiesAt res n cs ∧ cs.length < n ∧ cs.map Prod.snd = MemKey.setMembers st := by
  obtain ⟨arr, zs, f, hm, hslots, hlen, hown⟩ := IsTable.slots h
  have hcount : (entries zs).length ≤ zs.length := List.length_filterMap_le ..
  have hload : m = own p (.table ⟨st.size, st.used, arr⟩) + (own arr (.array (zs.map (Slot.map Prod.fst))) + f) := hm
  refine .seq (.loadAs hload rfl (.seq ((does_callocCells (n := st.size + 1) rfl).mono ?_)))
  rintro res _ rfl
  have hout : ∀ z ∈ entries zs, Outputs (copyMember res z.1) res (st.size + 1) m [z.2] := by
    intro z hz cs hcs
    obtain ⟨_, rest, rfl, rfl⟩ := hown z hz
    refine .seq (.loadAs (add_assoc ..) rfl (.seq (does_copyTo (by simpa using hcs.le) fun a => .pure ⟨_, ?_, rfl, ?_⟩)))
    · rw [List.length_append, List.length_singleton]
    · rw [List.map_append]
      rfl
  have hfull (_ : ℕ) (x : Owned) : Does (pure false : Prog Bool) (m + x) fun r m' => r = false ∧ m' = m + x :=
    .pure ⟨rfl, rfl⟩
  have hloop := copyLoop_does (g := fun s => [s]) [] [] zs hm hout hfull (by simp; omega)
  rw [hlen] at hloop
  refine .seq (hloop.mono ?_)
  rintro _ _ ⟨cs, rfl, rfl, hcs, hlt⟩
  refine .pure ⟨_, cs, rfl, hlt, ?_⟩
  rw [hcs, scan_never, hslots]
  exact List.flatMap_singleton' _

end Sets

/-! ### Hashes -/

/-- What a function that copies leaves: the array that it returns with its strings; if it returns NULL, nothing or an
    array that nobody knows any more. -/
inductive Copied : Option ℕ → Option (List Bytes) → Owned → Prop
  | some {res n : ℕ} {cs : List (ℕ × Bytes)} (h : cs.length < n) :
      Copied (some res) (some (cs.map Prod.snd)) (copiesAt res n cs)
  | none : Copied none none 0
  | lost {res n : ℕ} {cs : List (ℕ × Bytes)} (h : cs.length < n) : Copied none none (copiesAt res n cs)

section Hashes
variable {p : ℕ} {m : Owned} {tmp : HashTable Value} {out : ℕ → ℕ → ℕ → Prog ℕ} {g : HashTableItem Value → List Bytes}
  {count : Int → Int}

/-- The function copies the strings `g` of an item of a hash. -/
def FieldOutputs (out : ℕ → ℕ → ℕ → Prog ℕ) (g : HashTableItem Value → List Bytes) : Prop :=
  ∀ ⦃res n q k a : ℕ⦄ ⦃key value : Bytes⦄ ⦃m rest : Owned⦄,
    m = own q (.item ⟨.STR_T, k, some a⟩) + (own k (.chars key) + (own a (.chars value) + rest)) →
      Outputs (out res q) res n m (g ⟨.STR_T, key, .str value⟩)

theorem copyField_outputs : FieldOutputs copyField fun a => [a.key, a.value.text] := by
  intro res n q k a key value m rest hm cs hcs
  have hitem (x : Owned) : m + x = own q (.item ⟨.STR_T, k, some a⟩) +
      (own k (.chars key) + (own a (.chars value) + rest) + x) := by rw [hm, add_assoc]
  have hkey (x : Owned) : m + x = own k (.chars key) +
      (own q (.item ⟨.STR_T, k, some a⟩) + (own a (.chars value) + rest) + x) := by rw [hitem]; abel
  have hvalue (x : Owned) : m + x = own a (.chars value) +
      (own q (.item ⟨.STR_T, k, some a⟩) + (own k (.chars key) + rest) + x) := by rw [hitem]; abel
  have hroom : cs.length + 2 < n := hcs
  refine .seq (.loadAs (hitem _) rfl (.seq (.loadAs (hkey _) rfl (.seq (does_copyTo (by omega) fun b => ?_)))))
  refine .seq (.loadAs (hitem _) rfl (.seq (.pure (.seq (.loadAs (hvalue _) rfl (.seq ?_))))))
  have hnext : cs.length + 1 = (cs ++ [(b, key)]).length := by simp
  rw [hnext]
  refine does_copyTo (by rw [← hnext]; omega) fun c => .pure ⟨_, ?_, rfl, ?_⟩
  · simp
  · simp [Value.text]

theorem copyKeyval_outputs (ky : Int) :
    FieldOutputs (copyKeyval ky) fun a => [if ky ≠ 0 then a.key else a.value.text] := by
  intro res n q k a key value m rest hm cs hcs
  have hitem (x : Owned) : m + x = own q (.item ⟨.STR_T, k, some a⟩) +
      (own k (.chars key) + (own a (.chars value) + rest) + x) := by rw [hm, add_assoc]
  have hkey (x : Owned) : m + x = own k (.chars key) +
      (own q (.item ⟨.STR_T, k, some a⟩) + (own a (.chars value) + rest) + x) := by rw [hitem]; abel
  have hvalue (x : Owned) : m + x = own a (.chars value) +
      (own q (.item ⟨.STR_T, k, some a⟩) + (own k (.chars key) + rest) + x) := by rw [hitem]; abel
  have hroom : cs.length + 1 < n := hcs
  refine .seq (.loadAs (hitem _) rfl ?_)
  by_cases hky : ky ≠ 0
  · simp only [if_pos hky]
    refine .seq (.pure (.seq (.loadAs (hkey _) rfl (.seq (does_copyTo (by omega) fun b => .pure ⟨_, ?_, rfl, ?_⟩)))))
    · simp
    · simp
  · simp only [if_neg hky]
    refine .seq (.pure (.seq (.loadAs (hvalue _) rfl (.seq (does_copyTo (by omega) fun b => .pure ⟨_, ?_, rfl, ?_⟩)))))
    · simp
    · simp [Value.text]

/-- The array has room for as many strings as the counter says, and for a NULL. -/
theorem copyHash_does {outM : HashTableItem Value → Except Fault (List Bytes)} {r : Option (List Bytes)}
    (h : IsHtable StringAt p tmp m) (hout : FieldOutputs out g)
    (houtM : ∀ key value, outM ⟨.STR_T, key, .str value⟩ = .ok (g ⟨.STR_T, key, .str value⟩))
    (hroom : ((tmp.entries.flatMap g).length : Int) ≤ count tmp.used)
    (hmodel : hashLoop outM (count tmp.used) [] tmp.slots = .ok r) :
    Does (copyHash out count p) m fun r' m' => ∃ x, m' = m + x ∧ Copied r' r x := by
  obtain ⟨arr, zs, f, hm, hslots, hlen, hitems⟩ := h.slots
  have hstring : ∀ z ∈ entries zs, ∃ (k a : ℕ) (value : Bytes) (rest : Owned), z.2 = ⟨.STR_T, z.2.key, .str value⟩ ∧
      m = own z.1 (.item ⟨.STR_T, k, some a⟩) + (own k (.chars z.2.key) + (own a (.chars value) + rest)) := by
    rintro ⟨q, ⟨type, key, value⟩⟩ hz
    obtain ⟨k, ⟨a, type', value', blocks, hv⟩, rest, rfl, rfl, hrest⟩ := hitems _ hz
    cases hv
    exact ⟨k, a, _, rest, rfl, hrest⟩
  have hentries : tmp.entries = (entries zs).map Prod.snd := by rw [Table.entries, ← hslots, entries_map]
  have houts : ∀ a, .live a ∈ tmp.slots → outM a = .ok (g a) := by
    intro a ha
    have hmem : a ∈ (entries zs).map Prod.snd := hentries ▸ mem_entries.mpr (List.mem_iff_getElem?.mp ha)
    obtain ⟨z, hz, rfl⟩ := List.mem_map.mp hmem
    obtain ⟨k, b, value, rest, hitem, -⟩ := hstring z hz
    rw [hitem]
    exact houtM _ _
  cases (hashLoop_scan houts).symm.trans hmodel
  have hn : ((entries zs).flatMap fun z => g z.2).length = (tmp.entries.flatMap g).length := by
    rw [hentries, List.flatMap_map]
  refine .seq (.loadAs hm rfl (.seq ((does_callocCells rfl).mono ?_)))
  rintro res _ rfl
  have hfull : ∀ (id : ℕ) (x : Owned), Does (do
      let t ← load Block.asTable p
      pure (decide ((id : Int) = count t.used))) (m + x) fun r m' =>
        r = decide ((id : Int) = count tmp.used) ∧ m' = m + x :=
    fun id x => .seq (.loadAs ((congrArg (· + x) hm).trans (add_assoc ..)) rfl (.pure ⟨rfl, rfl⟩))
  have houtputs : ∀ z ∈ entries zs, Outputs (out res z.1) res (count tmp.used + 1).toNat m (g z.2) := by
    intro z hz
    obtain ⟨k, a, value, rest, hitem, hrest⟩ := hstring z hz
    rw [hitem]
    exact hout hrest
  have hloop := copyLoop_does [] [] zs hm houtputs hfull (by rw [List.length_nil, Nat.zero_add, hn]; omega)
  rw [hlen, hslots] at hloop
  refine .seq (hloop.mono ?_)
  rintro _ _ ⟨cs, rfl, rfl, hcs, hlt⟩
  dsimp only
  by_cases hdone : (scan g (fun id => decide ((id : Int) = count tmp.used)) [] tmp.slots).2 = true
  · rw [List.map_nil, if_pos hdone, if_pos hdone, ← List.map_nil, ← hcs]
    exact .seq (does_setNull hlt (.pure ⟨_, rfl, .some hlt⟩))
  · rw [List.map_nil, if_neg hdone, if_neg hdone]
    exact .pure ⟨_, rfl, .lost hlt⟩

end Hashes

/-! ### Items -/

section Search
variable {R : Values} {mode : IntMode} {p q : ℕ} {ht : HashTable Value} {m : Owned} {key : Bytes} {a : HashTableItem Value}

/-- The item lies at `q`, with its value. -/
def LiesAt (R : Values) (q : ℕ) (a : HashTableItem Value) (m : Owned) : Prop :=
  ∃ (k : ℕ) (v : Held R) (rest : Owned), v.type = a.type ∧ v.value = a.value ∧
    m = own q (.item ⟨v.type, k, some v.ptr⟩) + (v.blocks + rest)

theorem Focus.liesAt {ix : ℕ} (h : Focus R p ix ht a q m) : LiesAt R q a m := by
  obtain ⟨t, slots, k, b, rest, -, rfl, rfl, -⟩ := h
  refine ⟨k, b.held, own p (.table t) + (own t.items (.array slots) + (own k (.chars b.key) + rest)), rfl, rfl, ?_⟩
  rw [Pointer.itemAt]
  abel

theorem htableSearch_none_does (h : IsHtable R p ht m) (hsearch : MemKey.htableSearch mode ht key = .ok none) :
    Does (htableSearch mode p key) m fun r m' => r = none ∧ m' = m := by
  obtain ⟨s, hfind, heq⟩ := bind_eq_ok.mp hsearch
  obtain rfl := Option.map_eq_none_iff.mp (Except.ok.inj heq)
  refine .seq ((htableFind_none_does h hfind).mono ?_)
  rintro _ _ ⟨rfl, rfl⟩
  exact .pure ⟨rfl, rfl⟩

theorem htableSearch_some_does (h : IsHtable R p ht m) (hsearch : MemKey.htableSearch mode ht key = .ok (some a)) :
    Does (htableSearch mode p key) m fun r m' => m' = m ∧ ∃ q, r = some q ∧ LiesAt R q a m := by
  obtain ⟨s, hfind, heq⟩ := bind_eq_ok.mp hsearch
  obtain ⟨⟨ix, b⟩, rfl, rfl⟩ := Option.map_eq_some_iff.mp (Except.ok.inj heq)
  refine .seq ((htableFind_some_does h hfind).mono ?_)
  rintro _ _ ⟨rfl, q, rfl, hfocus⟩
  exact .pure ⟨rfl, q, rfl, hfocus.liesAt⟩

theorem htableType_does {name : Bytes} (h : IsHtable R p ht m) (htype : MemKey.htableType mode ht key = .ok name) :
    Does (htableType mode p key) m fun a m' => m' = m + own a (.chars name) := by
  obtain ⟨s, hsearch, hname⟩ := bind_eq_ok.mp htype
  cases s with
  | none =>
    cases hname
    refine .seq ((htableSearch_none_does h hsearch).mono ?_)
    rintro _ _ ⟨rfl, rfl⟩
    exact .alloc fun a => add_comm ..
  | some b =>
    cases hname
    refine .seq ((htableSearch_some_does h hsearch).mono ?_)
    rintro _ _ ⟨rfl, q, rfl, k, v, rest, htype, -, hm⟩
    refine .seq (.loadAs hm rfl (.alloc fun a => ?_))
    rw [← htype, add_comm]

end Search

/-! ### Values -/

/-- A pointer to a string of the memory, or NULL. -/
inductive PointsTo (m : Owned) : Option ℕ → Option Bytes → Prop
  | none : PointsTo m none none
  | some {a : ℕ} {s : Bytes} {f : Owned} (h : m = own a (.chars s) + f) : PointsTo m (some a) (some s)

theorem PointsTo.frame {m f : Owned} {q : Option ℕ} {s : Option Bytes} (h : PointsTo m q s) : PointsTo (m + f) q s := by
  cases h with
  | none => exact .none
  | some h => exact .some (h ▸ add_assoc ..)

/-- A program reads the blocks: it replies as `S` says, and leaves copies besides. -/
def Reads {ρ ρ' : Type} (S : Owned → ρ' → ρ → Owned → Prop) (c : Prog ρ') (m : Owned) (r : ρ) : Prop :=
  Does c m fun r' m' => ∃ x, m' = m + x ∧ S m r' r x

/-- The reply is that of the model. -/
def Same {ρ : Type} (_ : Owned) (r' r : ρ) (x : Owned) : Prop := r' = r ∧ x = 0

/-- The reply is a pointer to the string that the model replies. -/
def Shown (m : Owned) (r' : Option ℕ) (r : Option Bytes) (x : Owned) : Prop := PointsTo m r' r ∧ x = 0

section Reads
variable {mode : IntMode} {p : ℕ} {ht : HashTable Value} {m : Owned} {key field value : Bytes}

theorem reads_deref {ρ ρ' : Type} {S : Owned → ρ' → ρ → Owned → Prop} {c : ℕ → Prog ρ'} {a : ℕ} {r : ρ}
    (h : Reads S (c a) m r) : Reads S (deref (some a) >>= c) m r := .seq (.pure h)

theorem htableRead_cases {ρ : Type} {act : Value → Except Fault ρ} {missing r : ρ}
    (h : MemKey.htableRead mode ht key act missing = .ok r) :
    (MemKey.htableSearch mode ht key = .ok none ∧ r = missing) ∨
      ∃ a, MemKey.htableSearch mode ht key = .ok (some a) ∧ act a.value = .ok r := by
  obtain ⟨s, hsearch, hact⟩ := bind_eq_ok.mp h
  cases s with
  | none => exact .inl ⟨hsearch, (Except.ok.inj hact).symm⟩
  | some a => exact .inr ⟨a, hsearch, hact⟩

theorem htableRead_does {R : Values} {ρ ρ' : Type} {S : Owned → ρ' → ρ → Owned → Prop} {act : Value → Except Fault ρ}
    {actP : Option ℕ → Prog ρ'} {missing r : ρ} {missing' : ρ'} (h : IsHtable R p ht m)
    (hread : MemKey.htableRead mode ht key act missing = .ok r) (hmissing : S m missing' missing 0)
    (hframe : ∀ {n f r' x}, S n r' r x → S (n + f) r' r x)
    (hact : ∀ (v : Held R) a, MemKey.htableSearch mode ht key = .ok (some a) → v.value = a.value →
      act v.value = .ok r → Reads S (actP (some v.ptr)) v.blocks r) :
    Reads S (htableRead mode p key actP missing') m r := by
  rcases htableRead_cases hread with ⟨hsearch, rfl⟩ | ⟨a, hsearch, hr⟩
  · refine .seq ((htableSearch_none_does h hsearch).mono ?_)
    rintro _ _ ⟨rfl, rfl⟩
    exact .pure ⟨0, (add_zero _).symm, hmissing⟩
  · refine .seq ((htableSearch_some_does h hsearch).mono ?_)
    rintro _ _ ⟨rfl, q, rfl, k, v, rest, -, hv, hm⟩
    refine .seq (.loadAs hm rfl ?_)
    have hm' := hm.trans (add_left_comm ..)
    refine .call (hact v a hsearch hv (hv ▸ hr)) hm' ?_
    rintro r' _ ⟨x, rfl, hx⟩
    exact ⟨x, by rw [hm', add_right_comm], hm' ▸ hframe hx⟩

/-- A string is the block that its value points at. -/
theorem htableGet_does {R : Values} {r : Option Bytes} (h : IsHtable R p ht m)
    (hR : ∀ (v : Held R) s, v.value = .str s → v.blocks = own v.ptr (.chars s))
    (hget : MemKey.htableGet mode ht key = .ok r) : Reads Shown (htableGet mode p key) m r := by
  rcases htableRead_cases hget with ⟨hsearch, rfl⟩ | ⟨a, hsearch, hr⟩
  · refine .seq ((htableSearch_none_does h hsearch).mono ?_)
    rintro _ _ ⟨rfl, rfl⟩
    exact .pure ⟨0, (add_zero _).symm, .none, rfl⟩
  · refine .seq ((htableSearch_some_does h hsearch).mono ?_)
    rintro _ _ ⟨rfl, q, rfl, k, v, rest, -, hv, hm⟩
    obtain ⟨s, hs, heq⟩ := bind_eq_ok.mp hr
    cases heq
    have hm' := hm.trans (add_left_comm ..)
    rw [hR v s (hv.trans (asStr_eq_ok hs))] at hm'
    exact .seq (.loadAs hm rfl (.pure ⟨0, (add_zero _).symm, .some hm', rfl⟩))

/-! ### The keyspace -/

theorem Same.frame {ρ : Type} {n f : Owned} {r' r : ρ} {x : Owned} (h : Same n r' r x) : Same (n + f) r' r x := h

theorem Shown.frame {n f : Owned} {r' : Option ℕ} {r : Option Bytes} {x : Owned} (h : Shown n r' r x) :
    Shown (n + f) r' r x := ⟨h.1.frame, h.2⟩

theorem reads_same {ρ : Type} {c : Prog ρ} {r : ρ} (h : Does c m fun r' m' => r' = r ∧ m' = m) : Reads Same c m r :=
  h.mono fun _ _ hr => ⟨0, hr.2.trans (add_zero m).symm, hr.1, rfl⟩

theorem held_string (v : Held StringAt) {s : Bytes} (hv : v.value = .str s) : v.blocks = own v.ptr (.chars s) := by
  obtain ⟨a, type, value, n, h⟩ := v
  cases h
  cases hv
  rfl

theorem held_str (v : Held ValueAt) {s : Bytes} (hv : v.value = .str s) : v.blocks = own v.ptr (.chars s) := by
  obtain ⟨a, type, value, n, h⟩ := v
  cases h with
  | str =>
    cases hv
    rfl
  | hash | list | set => cases hv

theorem held_hash (v : Held ValueAt) {tmp : HashTable Value} (hv : v.value.asHash = .ok tmp) :
    IsHtable StringAt v.ptr tmp v.blocks := by
  obtain ⟨a, type, value, n, h⟩ := v
  cases h with
  | hash h =>
    cases hv
    exact h
  | str | list | set => cases hv

theorem held_list (v : Held ValueAt) {ls : CList} (hv : v.value.asList = .ok ls) :
    ∃ cells, v.blocks = listAt v.ptr cells ∧ Mirrors ls cells := by
  obtain ⟨a, type, value, n, h⟩ := v
  cases h with
  | list h =>
    cases hv
    exact ⟨_, rfl, h⟩
  | str | hash | set => cases hv

theorem held_set (v : Held ValueAt) {st : CSet} (hv : v.value.asSet = .ok st) : IsSet v.ptr st v.blocks := by
  obtain ⟨a, type, value, n, h⟩ := v
  cases h with
  | set h =>
    cases hv
    exact h
  | str | hash | list => cases hv

theorem htableHget_does {r : Option Bytes} (h : IsKeyspace p ht m) (hget : MemKey.htableHget mode ht key field = .ok r) :
    Reads Shown (htableHget mode p key field) m r := by
  refine htableRead_does h hget ⟨.none, rfl⟩ Shown.frame fun v a _ _ hr => ?_
  obtain ⟨tmp, htmp, hr⟩ := bind_eq_ok.mp hr
  exact reads_deref (htableGet_does (held_hash v htmp) (fun v _ => held_string v) hr)

theorem htableSismember_does {r : Bool} (h : IsKeyspace p ht m)
    (hmem : MemKey.htableSismember mode ht key value = .ok r) : Reads Same (htableSismember mode p key value) m r := by
  refine htableRead_does h hmem ⟨rfl, rfl⟩ Same.frame fun v a _ _ hr => ?_
  obtain ⟨st, hst, hr⟩ := bind_eq_ok.mp hr
  exact reads_deref (reads_same (setIsmember_does (held_set v hst) hr))

theorem htableHlen_does {r : Int} (h : IsKeyspace p ht m) (hlen : MemKey.htableHlen mode ht key = .ok r) :
    Reads Same (htableHlen mode p key) m r := by
  refine htableRead_does h hlen ⟨rfl, rfl⟩ Same.frame fun v a _ _ hr => ?_
  obtain ⟨tmp, htmp, heq⟩ := bind_eq_ok.mp hr
  cases heq
  obtain ⟨arr, f, hv⟩ := (held_hash v htmp).head
  exact reads_same (.seq (.loadAs hv rfl (.pure ⟨rfl, rfl⟩)))

/-- What is computed of the length of a list. -/
theorem does_length {ρ : Type} {g : Int → ρ} (v : Held ValueAt) {r : ρ}
    (hr : (do .ok (g (← v.value.asList).len)) = Except.ok (ε := Fault) r) :
    Reads Same (do
      let l ← load Block.asList v.ptr
      pure (g l.len)) v.blocks r := by
  obtain ⟨ls, hls, heq⟩ := bind_eq_ok.mp hr
  cases heq
  obtain ⟨cells, hcells, hm⟩ := held_list v hls
  refine reads_same (.seq (.loadAs hcells rfl (.pure ⟨?_, rfl⟩)))
  rw [Strings.len hm, texts, List.length_map]

theorem htableLlen_does {r : Int} (h : IsKeyspace p ht m) (hlen : MemKey.htableLlen mode ht key = .ok r) :
    Reads Same (htableLlen mode p key) m r :=
  htableRead_does h hlen ⟨rfl, rfl⟩ Same.frame fun v _ _ _ hr => does_length (g := id) v hr

theorem htableCheckId_does {id : Int} {r : Int × Int} (h : IsKeyspace p ht m)
    (hid : MemKey.htableCheckId mode ht key id = .ok r) : Reads Same (htableCheckId mode p key id) m r :=
  htableRead_does h hid ⟨rfl, rfl⟩ Same.frame fun v _ _ _ hr =>
    reads_deref (does_length (g := fun n => (if normId n id ≥ 0 ∧ normId n id < n then 1 else 0, normId n id)) v hr)

theorem htableCheckIds_does {b e : Int} {r : Int × Int × Int} (h : IsKeyspace p ht m)
    (hids : MemKey.htableCheckIds mode ht key b e = .ok r) : Reads Same (htableCheckIds mode p key b e) m r :=
  htableRead_does h hids ⟨rfl, rfl⟩ Same.frame fun v _ _ _ hr =>
    reads_deref (does_length (g := fun n => (if normId n b ≤ normId n e ∧ (normId n b ≥ 0 ∧ normId n b < n) ∧
      (normId n e ≥ 0 ∧ normId n e < n) then 1 else 0, normId n b, normId n e)) v hr)

theorem htableLpos_does {r : Int} (h : IsKeyspace p ht m) (hpos : MemKey.htableLpos mode ht key value = .ok r) :
    Reads Same (htableLpos mode p key value) m r := by
  refine htableRead_does h hpos ⟨rfl, rfl⟩ Same.frame fun v a _ _ hr => ?_
  obtain ⟨ls, hls, hr⟩ := bind_eq_ok.mp hr
  obtain ⟨cells, hcells, hm⟩ := held_list v hls
  rw [hcells]
  exact reads_deref (reads_same (listPos_does hm hr))

theorem htableLindex_does {id : Int} {r : Option Bytes} (h : IsKeyspace p ht m)
    (hindex : MemKey.htableLindex mode ht key id = .ok r) : Reads Shown (htableLindex mode p key id) m r := by
  refine htableRead_does h hindex ⟨.none, rfl⟩ Shown.frame fun v a _ _ hr => ?_
  obtain ⟨ls, hls, hr⟩ := bind_eq_ok.mp hr
  obtain ⟨cells, hcells, us, hrep, hus⟩ := held_list v hls
  rw [hcells]
  refine reads_deref (.seq ((listIndex_does id).mono ?_))
  rintro _ _ ⟨rfl, rfl⟩
  have hget : (us.map Prod.snd)[id.toNat]? = cells[id.toNat]?.map (·.2.2) := by
    rw [hus, texts, List.getElem?_map]
  rcases listIndex_spec hrep id with ⟨hmodel, hnone⟩ | ⟨b, nd, hmodel, hread, hsome⟩
  · rw [hmodel] at hr
    cases hr
    have hdrop : cells.drop id.toNat = [] := by
      rw [hnone, eq_comm, Option.map_eq_none_iff, List.getElem?_eq_none_iff] at hget
      exact List.drop_eq_nil_of_le hget
    rw [hdrop]
    exact .pure ⟨0, (add_zero _).symm, .none, rfl⟩
  · rw [hmodel, ok_bind] at hr
    dsimp only at hr
    rw [hread] at hr
    cases hr
    obtain ⟨⟨c, w, s⟩, hc, rfl⟩ := Option.map_eq_some_iff.mp (hget.symm.trans hsome)
    obtain ⟨hid, hc⟩ := List.getElem?_eq_some_iff.mp hc
    obtain ⟨xs, ys, rfl, hxs⟩ : ∃ xs ys, cells = xs ++ (c, w, nd.value) :: ys ∧ xs.length = id.toNat :=
      ⟨cells.take id.toNat, cells.drop (id.toNat + 1),
        by rw [← hc, List.getElem_cons_drop, List.take_append_drop], by simp; omega⟩
    rw [← hxs, List.drop_left, entry_cons]
    obtain ⟨d, rest, hm, rfl⟩ := listAt_node (p := v.ptr) xs ys (a := c) (v := w) (s := nd.value)
    exact .seq (.loadAs hm rfl (.pure ⟨0, (add_zero _).symm, .some (hm.trans (add_left_comm ..)), rfl⟩))

/-! ### Copies -/

/-- The counter of a hash counts at least its fields. -/
theorem counted_of_search {a : HashTableItem Value} {tmp : HashTable Value} (hs : Sound mode (Tagged mode) ht)
    (hsearch : MemKey.htableSearch mode ht key = .ok (some a)) (hv : a.value = .hash tmp) :
    (tmp.entries.length : Int) ≤ tmp.used := by
  have htag := hs.items a (hs.keyed.search_iff.mp hsearch).1
  obtain ⟨type, k, value⟩ := a
  obtain rfl : value = .hash tmp := hv
  cases htag with
  | hash hsound => exact hsound.keyed.1.counted

theorem htableHgetall_does {r : Option (List Bytes)} (h : IsKeyspace p ht m) (hs : Sound mode (Tagged mode) ht)
    (hget : MemKey.htableHgetall mode ht key = .ok r) : Reads (fun _ => Copied) (htableHgetall mode p key) m r := by
  refine htableRead_does h hget .none (fun hx => hx) fun v a hsearch hv hr => ?_
  obtain ⟨tmp, htmp, hr⟩ := bind_eq_ok.mp hr
  refine reads_deref (copyHash_does (held_hash v htmp) (g := fun a => [a.key, a.value.text]) copyField_outputs
    (fun _ _ => rfl) ?_ hr)
  have hcount := counted_of_search hs hsearch (hv ▸ asHash_eq_ok htmp)
  simp
  omega

theorem htableHkeyvals_does {ky : Int} {r : Option (List Bytes)} (h : IsKeyspace p ht m)
    (hs : Sound mode (Tagged mode) ht) (hget : MemKey.htableHkeyvals mode ht key ky = .ok r) :
    Reads (fun _ => Copied) (htableHkeyvals mode p key ky) m r := by
  refine htableRead_does h hget .none (fun hx => hx) fun v a hsearch hv hr => ?_
  obtain ⟨tmp, htmp, hr⟩ := bind_eq_ok.mp hr
  refine reads_deref (copyHash_does (held_hash v htmp) (copyKeyval_outputs ky) (fun _ _ => ?_) ?_ hr)
  · split
    · rfl
    · rfl
  have hcount := counted_of_search hs hsearch (hv ▸ asHash_eq_ok htmp)
  simpa using hcount

theorem htableSmembers_does {r : Option (List Bytes)} (h : IsKeyspace p ht m)
    (hmembers : MemKey.htableSmembers mode ht key = .ok r) : Reads (fun _ => Copied) (htableSmembers mode p key) m r := by
  refine htableRead_does h hmembers .none (fun hx => hx) fun v a _ _ hr => ?_
  obtain ⟨st, hst, heq⟩ := bind_eq_ok.mp hr
  cases heq
  refine reads_deref (.seq ((setMembers_does (held_set v hst)).mono ?_))
  rintro res _ ⟨n, cs, rfl, hlt, hcs⟩
  exact .pure ⟨_, rfl, hcs ▸ .some hlt⟩

theorem checkIds_allows {b e code b' e' : Int} (hids : MemKey.htableCheckIds mode ht key b e = .ok (code, b', e'))
    (hcode : code > 0) : ∃ a ls, MemKey.htableSearch mode ht key = .ok (some a) ∧ a.value.asList = .ok ls ∧
      0 ≤ b' ∧ b' ≤ e' ∧ e' < ls.len := by
  rcases htableRead_cases hids with ⟨-, heq⟩ | ⟨a, hsearch, hr⟩
  · cases heq
    exact absurd hcode (by decide)
  · obtain ⟨ls, hls, heq⟩ := bind_eq_ok.mp hr
    cases heq
    split at hcode
    case isTrue hin => exact ⟨a, ls, hsearch, hls, hin.2.1.1, hin.1, hin.2.2.2⟩
    case isFalse => exact absurd hcode (by decide)

/-- Between indices that `htable_check_ids` allows. -/
theorem htableLrange_does {b e : Int} {a : HashTableItem Value} {ls : CList} {r : Option (List Bytes)}
    (h : IsKeyspace p ht m) (hs : Sound mode (Tagged mode) ht)
    (hsearch : MemKey.htableSearch mode ht key = .ok (some a)) (hls : a.value.asList = .ok ls) (hb : 0 ≤ b) (hbe : b ≤ e)
    (he : e < ls.len) (hrange : MemKey.htableLrange mode ht key b e = .ok r) :
    Reads (fun _ => Copied) (htableLrange mode p key b e) m r := by
  have htag := hs.items a (hs.keyed.search_iff.mp hsearch).1
  have htype : MemKey.htableType mode ht key = .ok (str "list") := by
    rw [MemKey.htableType, hsearch]
    obtain ⟨type, k, value⟩ := a
    cases htag with
    | list => rfl
    | str | hash | set => cases hls
  have his : isType (str "list") (str "list") = true := by simp [isType]
  rw [MemKey.htableLrange, htype, ok_bind, if_pos his, hsearch, ok_bind] at hrange
  dsimp only at hrange
  rw [hls, ok_bind] at hrange
  obtain ⟨l, hl, heq⟩ := bind_eq_ok.mp hrange
  cases heq
  refine .seq ((htableType_does h htype).mono ?_)
  rintro t _ rfl
  refine .seq (.loadAs (add_comm ..) rfl ?_)
  rw [if_pos his]
  refine .seq (.release (add_comm ..) (.seq ((htableSearch_some_does h hsearch).mono ?_)))
  rintro _ _ ⟨rfl, q, rfl, k, v, rest, -, hv, hm⟩
  refine .seq (.pure (.seq (.loadAs hm rfl (.seq (.pure (.seq ?_))))))
  obtain ⟨cells, hcells, hmirrors⟩ := held_list v (hv ▸ hls)
  rw [hcells] at hm
  refine .call (listRange_does hmirrors hb hbe he hl) (hm.trans (add_left_comm ..)) ?_
  rintro res _ ⟨n, cs, rfl, hlt, rfl⟩
  refine .pure ⟨copiesAt res n cs, ?_, .some hlt⟩
  rw [hm]
  abel

end Reads

end MemKey.Pointer
