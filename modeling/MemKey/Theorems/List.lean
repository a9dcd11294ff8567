import MemKey.List
import MemKey.Lib.Outcome

/-! The lists of `list.c` represent sequences: each operation runs without a fault on a list that does, and
    leaves a list that does. -/

namespace MemKey
open Linked Outcome

/-- The list represents the cells, and `len` is their number. -/
structure Rep (ls : CList) (cells : List (ℕ × Bytes)) : Prop where
  nodes : IsList ls.nodes ls.head ls.tail cells
  len : ls.len = cells.length

section List
variable {ls : CList} {nodes : Heap Bytes} {nd : ListNode} {a : ℕ} {v w : Bytes} {q prev : Option ℕ}
  {xs ys cells : List (ℕ × Bytes)}

theorem deref_of_read (hr : nodes.read a = some nd) : deref nodes (some a) = .ok (a, nd) := by
  simp [deref, hr]

theorem setNext_of_read (hr : nodes.read a = some nd) :
    setNext nodes (some a) q = .ok (nodes.write a { nd with next := q }) := by
  rw [setNext, deref_of_read hr]
  rfl

theorem setPrev_of_read (hr : nodes.read a = some nd) :
    setPrev nodes (some a) q = .ok (nodes.write a { nd with prev := q }) := by
  rw [setPrev, deref_of_read hr]
  rfl

theorem Rep.init : Rep listInit [] := ⟨⟨trivial, List.nodup_nil, rfl, rfl⟩, rfl⟩

theorem Rep.fresh (h : Rep ls cells) : ls.nodes.length ∉ cells.map Prod.fst := by
  intro hmem
  obtain ⟨c, hc, heq⟩ := List.mem_map.mp hmem
  obtain ⟨nd, hr, -⟩ := h.nodes.chain.read_of_mem hc
  have := Heap.lt_of_read hr
  omega

theorem Rep.head_ne (h : Rep ls cells) (hne : cells ≠ []) : ls.head ≠ none := by
  rw [h.nodes.head]
  cases cells with
  | nil => exact absurd rfl hne
  | cons c cells => exact Option.some_ne_none c.1

/-! ### Pushes -/

theorem listLpush_spec (h : Rep ls cells) (v : Bytes) :
    ∃ ls', listLpush ls v = .ok ls' ∧ Rep ls' ((ls.nodes.length, v) :: cells) := by
  have hfresh := h.fresh
  have hn := h.nodes.nodup
  have hc := h.nodes.chain
  have hlen := h.len
  unfold listLpush
  cases cells with
  | nil =>
    rw [if_neg (by simp [hlen])]
    exact ⟨_, rfl, ⟨⟨⟨Heap.read_alloc_self, trivial⟩, by simp, rfl, rfl⟩, by simp [hlen]⟩⟩
  | cons c cells =>
    obtain ⟨b, w⟩ := c
    simp only [List.map_cons, List.mem_cons, not_or, List.nodup_cons] at hfresh hn
    rw [if_pos (by simp [hlen]), h.nodes.head, entry_cons]
    have hc' := hc.alloc ⟨v, some b, none⟩
    rw [setPrev_of_read hc'.1]
    refine ⟨_, rfl, ⟨⟨⟨?_, hc'.set_prev hn.1⟩, ?_, rfl, ?_⟩, by simp [hlen]⟩⟩
    · rw [Heap.read_write_ne hfresh.1]
      exact Heap.read_alloc_self
    · simp only [List.map_cons, List.nodup_cons, List.mem_cons, not_or]
      exact ⟨hfresh, hn⟩
    · exact h.nodes.tail

theorem listRpush_spec (h : Rep ls cells) (v : Bytes) :
    ∃ ls', listRpush ls v = .ok ls' ∧ Rep ls' (cells ++ [(ls.nodes.length, v)]) := by
  have hfresh := h.fresh
  have hn := h.nodes.nodup
  have hc := h.nodes.chain
  have hlen := h.len
  unfold listRpush
  rcases List.eq_nil_or_concat cells with rfl | ⟨xs, ⟨b, w⟩, rfl⟩
  · rw [if_neg (by simp [hlen])]
    exact ⟨_, rfl, ⟨⟨⟨Heap.read_alloc_self, trivial⟩, by simp, rfl, rfl⟩, by simp [hlen]⟩⟩
  · rw [List.concat_eq_append] at *
    have hb : b ∉ xs.map Prod.fst := by
      rw [List.map_append, List.nodup_append] at hn
      exact fun hmem => hn.2.2 b hmem b (by simp) rfl
    have htail : ls.tail = some b := by rw [h.nodes.tail]; simp
    rw [if_pos (by simp [hlen]), htail]
    have hc' := hc.alloc ⟨v, none, some b⟩
    rw [setNext_of_read hc'.read]
    refine ⟨_, rfl, ⟨⟨?_, ?_, ?_, by simp⟩, by simp [hlen]; omega⟩⟩
    · refine chain_append.mpr ⟨hc'.set_next hb, ?_, trivial⟩
      rw [Heap.read_write_ne (by simp at hfresh; omega), Heap.read_alloc_self]
      simp
    · rw [List.map_append, List.nodup_append]
      refine ⟨hn, by simp, ?_⟩
      rintro x hx y hy rfl
      simp only [List.map_cons, List.map_nil, List.mem_singleton] at hy
      exact hfresh (hy ▸ hx)
    · change ls.head = _
      rw [h.nodes.head]
      cases xs <;> rfl

/-! ### Pops -/

theorem nodup_middle (hn : ((xs ++ (a, v) :: ys).map Prod.fst).Nodup) :
    a ∉ xs.map Prod.fst ∧ a ∉ ys.map Prod.fst ∧ ((xs ++ ys).map Prod.fst).Nodup := by
  rw [List.map_append, List.map_cons, List.nodup_middle, List.nodup_cons, List.mem_append, not_or,
    ← List.map_append] at hn
  exact ⟨hn.1.1, hn.1.2, hn.2⟩

theorem listLpop_spec (h : Rep ls ((a, v) :: cells)) :
    ∃ ls', listLpop ls = .ok (ls', some a) ∧ Rep ls' cells ∧ deref ls'.nodes (some a) = .ok (a, ⟨v, none, none⟩) := by
  have hlen := h.len
  have hc := h.nodes.chain
  obtain ⟨ha, hn⟩ : a ∉ cells.map Prod.fst ∧ (cells.map Prod.fst).Nodup := List.nodup_cons.mp h.nodes.nodup
  simp only [List.length_cons, Nat.cast_add, Nat.cast_one] at hlen
  rw [listLpop, if_neg (by omega), h.nodes.head, entry_cons, deref_of_read hc.1, ok_bind]
  dsimp only
  cases cells with
  | nil =>
    rw [if_neg (by simp [hlen])]
    refine ⟨_, rfl, ⟨⟨trivial, List.nodup_nil, rfl, rfl⟩, by simp [hlen]⟩, ?_⟩
    exact deref_of_read (Heap.read_write_self hc.1)
  | cons c cells =>
    obtain ⟨b, w⟩ := c
    have hne : a ≠ b := fun heq => ha (by simp [heq])
    have hb : b ∉ cells.map Prod.fst := (List.nodup_cons.mp hn).1
    rw [if_pos (by simp [hlen]), entry_cons, setPrev_of_read hc.2.1]
    refine ⟨_, rfl, ⟨⟨(hc.2.set_prev hb).write ha, hn, rfl, ?_⟩, by simp [hlen]⟩, ?_⟩
    · exact h.nodes.tail
    · exact deref_of_read (Heap.read_write_self (Heap.read_write_of_ne hne hc.1))

theorem listRpop_spec (h : Rep ls (cells ++ [(a, v)])) :
    ∃ ls', listRpop ls = .ok (ls', some a) ∧ Rep ls' cells ∧ deref ls'.nodes (some a) = .ok (a, ⟨v, none, none⟩) := by
  have hlen := h.len
  have hc := h.nodes.chain
  obtain ⟨ha, -, hn⟩ := nodup_middle h.nodes.nodup
  have htail : ls.tail = some a := by rw [h.nodes.tail]; simp
  simp only [List.length_append, List.length_cons, List.length_nil, Nat.cast_add, Nat.cast_one] at hlen
  rw [listRpop, if_neg (by omega), htail, deref_of_read hc.read, ok_bind]
  dsimp only
  rcases List.eq_nil_or_concat cells with rfl | ⟨xs, ⟨b, w⟩, rfl⟩
  · rw [if_neg (by simp [hlen])]
    refine ⟨_, rfl, ⟨⟨trivial, List.nodup_nil, rfl, rfl⟩, by simp [hlen]⟩, ?_⟩
    exact deref_of_read (Heap.read_write_self hc.read)
  · rw [List.concat_eq_append] at *
    have hne : a ≠ b := fun heq => ha (by simp [heq])
    rw [List.append_nil] at hn
    obtain ⟨hb, -, -⟩ := nodup_middle hn
    have hxs := (chain_append.mp hc).1
    rw [if_pos (by simp [hlen]), exit_append, exit_cons, exit_nil, setNext_of_read hxs.read]
    refine ⟨_, rfl, ⟨⟨(hxs.set_next hb).write ha, hn, ?_, by simp⟩, by simp [hlen]⟩, ?_⟩
    · change ls.head = _
      rw [h.nodes.head]
      cases xs <;> rfl
    · exact deref_of_read (Heap.read_write_self (Heap.read_write_of_ne hne hc.read))

/-! ### Walks -/

theorem listSkip_spec (hc : Chain nodes prev cells none) (n : ℕ) :
    listSkip nodes (entry cells none) n = .ok (entry (cells.drop n) none) := by
  induction n generalizing prev cells with
  | zero => rfl
  | succ n ih =>
    cases cells with
    | nil => rfl
    | cons c cells =>
      obtain ⟨a, v⟩ := c
      rw [entry_cons, listSkip, deref_of_read hc.1]
      exact ih hc.2

theorem listIndex_spec (h : Rep ls cells) (id : Int) :
    (listIndex ls id = .ok none ∧ (cells.map Prod.snd)[id.toNat]? = none) ∨
    ∃ a nd, listIndex ls id = .ok (some a) ∧ deref ls.nodes (some a) = .ok (a, nd) ∧
      (cells.map Prod.snd)[id.toNat]? = some nd.value := by
  have hc := h.nodes.chain
  rw [listIndex, h.nodes.head, listSkip_spec hc]
  have hdrop := (chain_append.mp ((List.take_append_drop id.toNat cells).symm ▸ hc)).2
  have hget : cells[id.toNat]? = (cells.drop id.toNat).head? := by simp
  rw [List.getElem?_map, hget]
  cases hcells : cells.drop id.toNat with
  | nil => exact .inl ⟨rfl, rfl⟩
  | cons c rest =>
    obtain ⟨a, v⟩ := c
    rw [hcells] at hdrop
    exact .inr ⟨a, _, rfl, deref_of_read hdrop.1, rfl⟩

theorem listSet_spec (h : Rep ls cells) (id : Int) (w : Bytes) :
    ∃ ls' cells', listSet ls id w = .ok (ls', decide (id.toNat < cells.length)) ∧ Rep ls' cells' ∧
      cells'.map Prod.snd = (cells.map Prod.snd).set id.toNat w := by
  have hc := h.nodes.chain
  rw [listSet, h.nodes.head, listSkip_spec hc, ok_bind]
  by_cases hid : id.toNat < cells.length
  · obtain ⟨xs, ⟨a, v⟩, ys, rfl, hxs⟩ : ∃ xs c ys, cells = xs ++ c :: ys ∧ xs.length = id.toNat :=
      ⟨cells.take id.toNat, cells[id.toNat], cells.drop (id.toNat + 1), by simp, by simp; omega⟩
    rw [← hxs, List.drop_left]
    dsimp only [entry_cons]
    rw [deref_of_read hc.read]
    refine ⟨_, xs ++ (a, w) :: ys, by simp; rfl, ⟨⟨hc.set_value h.nodes.nodup, ?_, ?_, ?_⟩, ?_⟩, ?_⟩
    · simpa using h.nodes.nodup
    · simp
    · simpa using h.nodes.tail
    · simpa using h.len
    · rw [List.map_append, List.map_append, List.map_cons, List.map_cons]
      simp
  · rw [List.drop_eq_nil_of_le (by omega)]
    have hout : (cells.map Prod.snd).set id.toNat w = cells.map Prod.snd :=
      List.set_eq_of_length_le (by rw [List.length_map]; omega)
    exact ⟨ls, cells, by simp [hid], h, hout.symm⟩

theorem listPos_loop (hc : Chain nodes prev cells none) (value : Bytes) (i : Int) {fuel : ℕ}
    (hfuel : cells.length < fuel) :
    listPos.loop nodes value (entry cells none) i fuel = .ok
      (match (cells.map Prod.snd).findIdx? (· = value) with
        | some j => i + j
        | none => -1) := by
  induction fuel generalizing prev cells i with
  | zero => omega
  | succ fuel ih =>
    cases cells with
    | nil => rfl
    | cons c cells =>
      obtain ⟨a, v⟩ := c
      rw [entry_cons, listPos.loop, deref_of_read hc.1, ok_bind]
      simp only [List.map_cons, List.findIdx?_cons]
      by_cases hv : v = value
      · simp [hv]
      · rw [if_neg hv, ih hc.2 (i + 1) (by simpa using hfuel), if_neg (by simpa using hv)]
        cases (cells.map Prod.snd).findIdx? (· = value) with
        | none => rfl
        | some j =>
          simp only [Option.map_some, Nat.cast_add, Nat.cast_one, Except.ok.injEq]
          omega

theorem listPos_spec (h : Rep ls cells) (value : Bytes) :
    listPos ls value = .ok (match (cells.map Prod.snd).findIdx? (· = value) with
      | some j => (j : Int)
      | none => -1) := by
  have hlen := h.nodes.chain.length_le h.nodes.nodup
  rw [listPos, h.nodes.head, listPos_loop h.nodes.chain value 0 (by omega)]
  cases (cells.map Prod.snd).findIdx? (· = value) <;> simp

theorem listRange_skip (hc : Chain nodes prev cells none) {n : ℕ} (hn : n ≤ cells.length) :
    listRange.skip nodes (entry cells none) n = .ok (entry (cells.drop n) none) := by
  induction n generalizing prev cells with
  | zero => rfl
  | succ n ih =>
    cases cells with
    | nil => simp at hn
    | cons c cells =>
      obtain ⟨a, v⟩ := c
      rw [entry_cons, listRange.skip, deref_of_read hc.1]
      exact ih hc.2 (by simpa using hn)

theorem listRange_take (hc : Chain nodes prev cells none) {n : ℕ} (hn : n ≤ cells.length) :
    listRange.take nodes (entry cells none) n = .ok ((cells.take n).map Prod.snd) := by
  induction n generalizing prev cells with
  | zero => rfl
  | succ n ih =>
    cases cells with
    | nil => simp at hn
    | cons c cells =>
      obtain ⟨a, v⟩ := c
      rw [entry_cons, listRange.take, deref_of_read hc.1, ok_bind]
      dsimp only
      rw [ih hc.2 (by simpa using hn)]
      rfl

theorem listRange_spec (h : Rep ls cells) {b e : ℕ} (hbe : b ≤ e) (he : e < cells.length) :
    listRange ls b e = .ok (((cells.drop b).take (e + 1 - b)).map Prod.snd) := by
  have hdrop := (chain_append.mp ((List.take_append_drop b cells).symm ▸ h.nodes.chain)).2
  have hcount : ((e : Int) + 1 - max (b : Int) 0).toNat = e + 1 - b := by omega
  rw [listRange, h.nodes.head, Int.toNat_natCast, listRange_skip h.nodes.chain (by omega), ok_bind, hcount]
  exact listRange_take hdrop (by rw [List.length_drop]; omega)

/-! ### Removals -/

/-- What unlinking the cell `a` leaves: the other cells in order, and the links that `a` had. -/
structure Unlinked (ls ls' : CList) (xs ys : List (ℕ × Bytes)) (a : ℕ) (v : Bytes) : Prop where
  len : ls'.len = ls.len
  nodes : IsList ls'.nodes ls'.head ls'.tail (xs ++ ys)
  read : ls'.nodes.read a = some ⟨v, entry ys none, exit none xs⟩

theorem Rep.len_ne_one (h : Rep ls cells) (hcells : 2 ≤ cells.length) : ls.len ≠ 1 := by
  have := h.len
  omega

theorem nodeDel_only (h : Rep ls [(a, v)]) : ∃ ls', nodeDel ls (some a) = .ok ls' ∧ Unlinked ls ls' [] [] a v := by
  have hlen : ls.len = 1 := h.len
  rw [nodeDel, if_neg (by simp [h.head_ne]), if_pos (by omega)]
  exact ⟨_, rfl, rfl, ⟨trivial, List.nodup_nil, rfl, rfl⟩, h.nodes.chain.1⟩

theorem nodeDel_head {b : ℕ} (h : Rep ls ((a, v) :: (b, w) :: ys)) :
    ∃ ls', nodeDel ls (some a) = .ok ls' ∧ Unlinked ls ls' [] ((b, w) :: ys) a v := by
  obtain ⟨hread, hys⟩ := h.nodes.chain
  obtain ⟨ha, hn⟩ : a ∉ ((b, w) :: ys).map Prod.fst ∧ (((b, w) :: ys).map Prod.fst).Nodup :=
    List.nodup_cons.mp h.nodes.nodup
  have hlen : ls.len ≠ 1 := h.len_ne_one (by simp)
  have hhead : ls.head = some a := h.nodes.head
  rw [nodeDel, if_neg (by simp [hhead]), if_neg (by omega), if_pos hhead.symm, deref_of_read hread, ok_bind]
  dsimp only [entry_cons]
  rw [setPrev_of_read hys.1]
  refine ⟨_, rfl, rfl, ⟨hys.set_prev (List.nodup_cons.mp hn).1, hn, rfl, h.nodes.tail⟩, ?_⟩
  exact Heap.read_write_of_ne (fun heq => ha (by simp [heq])) hread

theorem nodeDel_tail {b : ℕ} (h : Rep ls (xs ++ [(b, w)] ++ [(a, v)])) :
    ∃ ls', nodeDel ls (some a) = .ok ls' ∧ Unlinked ls ls' (xs ++ [(b, w)]) [] a v := by
  obtain ⟨hxs, hread, -⟩ := chain_append.mp h.nodes.chain
  obtain ⟨ha, -, hn⟩ := nodup_middle h.nodes.nodup
  have hlen : ls.len ≠ 1 := h.len_ne_one (by simp)
  have hhead : ls.head = entry (xs ++ [(b, w)]) (some a) := by rw [h.nodes.head, entry_append]; rfl
  have hne : some a ≠ ls.head := fun heq => ha (entry_mem (by simp) (hhead.symm.trans heq.symm))
  have htail : some a = ls.tail := by rw [h.nodes.tail]; simp
  have hb : b ∉ xs.map Prod.fst := by
    rw [List.append_nil] at hn
    exact (nodup_middle hn).1
  rw [nodeDel, if_neg (by simp [h.head_ne]), if_neg (by omega), if_neg hne, if_pos htail,
    deref_of_read hread, ok_bind]
  dsimp only
  rw [exit_append, exit_cons, exit_nil, setNext_of_read hxs.read]
  refine ⟨_, rfl, rfl, ⟨?_, hn, ?_, by simp⟩, ?_⟩
  · rw [List.append_nil]
    exact hxs.set_next hb
  · rw [hhead]
    cases xs <;> rfl
  · refine Heap.read_write_of_ne (fun heq => ha (by simp [heq])) ?_
    simpa using hread

theorem nodeDel_middle {b d : ℕ} {u : Bytes} (h : Rep ls (xs ++ [(b, w)] ++ (a, v) :: (d, u) :: ys)) :
    ∃ ls', nodeDel ls (some a) = .ok ls' ∧ Unlinked ls ls' (xs ++ [(b, w)]) ((d, u) :: ys) a v := by
  obtain ⟨hxs, hread, hys⟩ := chain_append.mp h.nodes.chain
  obtain ⟨hax, hay, hn⟩ := nodup_middle h.nodes.nodup
  obtain ⟨hdx, hdy, -⟩ := nodup_middle hn
  have hlen : ls.len ≠ 1 := h.len_ne_one (by simp; omega)
  have hhead : ls.head = entry (xs ++ [(b, w)]) (some a) := by rw [h.nodes.head, entry_append]; rfl
  have htail : ls.tail = exit (some a) ((d, u) :: ys) := by rw [h.nodes.tail, exit_append]; rfl
  have hne : some a ≠ ls.head := fun heq => hax (entry_mem (by simp) (hhead.symm.trans heq.symm))
  have hne' : some a ≠ ls.tail := fun heq => hay (exit_mem (by simp) (htail.symm.trans heq.symm))
  obtain ⟨hbx, hby, -⟩ : b ∉ xs.map Prod.fst ∧ b ∉ ((d, u) :: ys).map Prod.fst ∧ _ := by
    rw [List.append_assoc] at hn
    exact nodup_middle hn
  have hab : a ≠ b := fun heq => hax (by simp [heq])
  have had : a ≠ d := fun heq => hay (by simp [heq])
  have hdb : d ≠ b := fun heq => hdx (by simp [heq])
  rw [nodeDel, if_neg (by simp [h.head_ne]), if_neg (by omega), if_neg hne, if_neg hne', deref_of_read hread,
    ok_bind]
  dsimp only
  rw [exit_append, exit_cons, exit_nil, setNext_of_read hxs.read, ok_bind, entry_cons]
  rw [deref_of_read (Heap.read_write_of_ne hab hread), ok_bind]
  dsimp only
  rw [entry_cons, exit_append, exit_cons, exit_nil, setPrev_of_read (Heap.read_write_of_ne hdb hys.1)]
  refine ⟨_, rfl, rfl, ⟨?_, hn, ?_, ?_⟩, ?_⟩
  · exact chain_append.mpr ⟨(hxs.set_next hbx).write hdx, by simpa using (hys.write hby).set_prev hdy⟩
  · rw [hhead]
    cases xs <;> rfl
  · rw [htail]
    simp
  · refine Heap.read_write_of_ne had (Heap.read_write_of_ne hab ?_)
    simpa using hread

theorem nodeDel_spec (h : Rep ls (xs ++ (a, v) :: ys)) :
    ∃ ls', nodeDel ls (some a) = .ok ls' ∧ Unlinked ls ls' xs ys a v := by
  rcases List.eq_nil_or_concat xs with rfl | ⟨xs, ⟨b, w⟩, rfl⟩
  · cases ys with
    | nil => exact nodeDel_only h
    | cons c ys => exact nodeDel_head h
  · rw [List.concat_eq_append] at *
    cases ys with
    | nil => exact nodeDel_tail h
    | cons c ys => exact nodeDel_middle h

/-- Freeing the unlinked node finishes the removal of its cell. -/
theorem Unlinked.rep {ls' : CList} (hu : Unlinked ls ls' xs ys a v) (h : Rep ls (xs ++ (a, v) :: ys)) :
    Rep { ls' with len := ls'.len - 1, nodes := ls'.nodes.free a } (xs ++ ys) := by
  obtain ⟨hax, hay, -⟩ := nodup_middle h.nodes.nodup
  have ha : a ∉ (xs ++ ys).map Prod.fst := by
    rw [List.map_append, List.mem_append, not_or]
    exact ⟨hax, hay⟩
  refine ⟨⟨hu.nodes.chain.free ha, hu.nodes.nodup, hu.nodes.head, hu.nodes.tail⟩, ?_⟩
  have hlen := h.len
  simp only [List.length_append, List.length_cons, hu.len] at hlen ⊢
  omega

/-- One round of the loop of `list_rem`, in either direction. -/
theorem listRem_step {pos count : Int} (h : Rep ls (xs ++ (a, v) :: ys)) (hgo : ¬(pos ≠ 0 ∧ count = 0))
    (value : Bytes) (fuel : ℕ) (i : Int) :
    ∃ ls', Rep ls' (if v = value then xs ++ ys else xs ++ (a, v) :: ys) ∧
      listRem.loop pos value (fuel + 1) ls count (some a) i =
        if v = value then
          listRem.loop pos value fuel ls' (if pos ≥ 0 then count - 1 else count + 1)
            (if pos ≥ 0 then entry ys none else exit none xs) (i + 1)
        else listRem.loop pos value fuel ls' count (if pos ≥ 0 then entry ys none else exit none xs) i := by
  rw [listRem.loop, if_neg hgo, deref_of_read h.nodes.chain.read, ok_bind]
  by_cases hv : v = value
  · simp only [hv, if_true]
    obtain ⟨ls', hdel, hu⟩ := nodeDel_spec h
    refine ⟨_, hu.rep h, ?_⟩
    rw [hdel, ok_bind, deref_of_read hu.read]
    rfl
  · simp only [hv, if_false]
    exact ⟨ls, h, rfl⟩

/-- The list without its first `n` elements that satisfy `p`. -/
def dropFirst {β : Type} (p : β → Bool) : ℕ → List β → List β
  | 0, l => l
  | _ + 1, [] => []
  | n + 1, b :: l => if p b then dropFirst p n l else b :: dropFirst p (n + 1) l

theorem length_dropFirst_le {β : Type} (p : β → Bool) (n : ℕ) (l : List β) :
    (dropFirst p n l).length ≤ l.length := by
  induction l generalizing n with
  | nil => cases n <;> simp [dropFirst]
  | cons b l ih =>
    cases n with
    | zero => simp [dropFirst]
    | succ n =>
      rw [dropFirst]
      split
      · have := ih n
        simp only [List.length_cons]
        omega
      · simpa using ih (n + 1)

theorem dropFirst_eq_nil {β : Type} {p : β → Bool} {n : ℕ} {l : List β} :
    dropFirst p n l = [] ↔ (∀ b ∈ l, p b = true) ∧ l.length ≤ n := by
  induction l generalizing n with
  | nil => cases n <;> simp [dropFirst]
  | cons b l ih =>
    cases n with
    | zero => simp [dropFirst]
    | succ n =>
      by_cases hb : p b = true
      · rw [dropFirst, if_pos hb, ih]
        simp [hb]
      · rw [dropFirst, if_neg hb]
        simp [hb]

/-- The loop forward, with the cells `ys` to go and `n` of them to remove: as many as `count` says when the
    call limits them, and enough for all when it does not. -/
theorem listRem_forward {pos count : Int} {fuel n : ℕ} (value : Bytes) (i : Int) (h : Rep ls (xs ++ ys))
    (hfuel : ys.length < fuel) (hn : 0 < pos ∧ count = n ∨ pos = 0 ∧ ys.length ≤ n) :
    ∃ ls', Rep ls' (xs ++ dropFirst (·.2 = value) n ys) ∧
      listRem.loop pos value fuel ls count (entry ys none) i =
        .ok (ls', i + (ys.length - (dropFirst (·.2 = value) n ys).length : ℕ)) := by
  induction fuel generalizing ls xs ys count i n with
  | zero => omega
  | succ fuel ih =>
    cases ys with
    | nil => cases n <;> exact ⟨ls, h, by simp [listRem.loop, dropFirst]⟩
    | cons c ys =>
      obtain ⟨a, v⟩ := c
      cases n with
      | zero =>
        have hstop : pos ≠ 0 ∧ count = 0 := by
          simp only [List.length_cons] at hn
          omega
        exact ⟨ls, h, by simp [listRem.loop, hstop, dropFirst]⟩
      | succ n =>
        have hpos : pos ≥ 0 := by omega
        simp only [List.length_cons] at hfuel hn
        have hgo : ¬(pos ≠ 0 ∧ count = 0) := by omega
        obtain ⟨ls₁, h₁, hstep⟩ := listRem_step h hgo value fuel i
        rw [entry_cons, hstep, if_pos hpos, if_pos hpos]
        have hle := length_dropFirst_le (fun c : ℕ × Bytes => decide (c.2 = value)) n ys
        by_cases hv : v = value
        · rw [if_pos hv] at h₁ ⊢
          have hn' : 0 < pos ∧ count - 1 = n ∨ pos = 0 ∧ ys.length ≤ n := by omega
          obtain ⟨ls', h', hloop⟩ := ih (i + 1) h₁ (by omega) hn'
          refine ⟨ls', by simpa [dropFirst, hv] using h', ?_⟩
          rw [hloop]
          simp only [dropFirst, hv, decide_true, if_true, List.length_cons, Except.ok.injEq, Prod.mk.injEq, true_and]
          omega
        · rw [if_neg hv] at h₁ ⊢
          have h₂ : Rep ls₁ ((xs ++ [(a, v)]) ++ ys) := by simpa using h₁
          have hn' : 0 < pos ∧ count = (n + 1 : ℕ) ∨ pos = 0 ∧ ys.length ≤ n + 1 := by omega
          obtain ⟨ls', h', hloop⟩ := ih i h₂ (by omega) hn'
          refine ⟨ls', by simpa [dropFirst, hv] using h', ?_⟩
          rw [hloop]
          simp [dropFirst, hv]

/-- The loop backward, with the cells `zs` to go from the last one on. -/
theorem listRem_backward {pos : Int} {fuel : ℕ} {zs : List (ℕ × Bytes)} (hpos : pos < 0) (value : Bytes) (i : Int)
    (n : ℕ) (h : Rep ls (zs.reverse ++ xs)) (hfuel : zs.length < fuel) :
    ∃ ls', Rep ls' ((dropFirst (·.2 = value) n zs).reverse ++ xs) ∧
      listRem.loop pos value fuel ls (-n) (exit none zs.reverse) i =
        .ok (ls', i + (zs.length - (dropFirst (·.2 = value) n zs).length : ℕ)) := by
  induction fuel generalizing ls xs zs i n with
  | zero => omega
  | succ fuel ih =>
    cases zs with
    | nil => cases n <;> exact ⟨ls, h, by simp [listRem.loop, dropFirst]⟩
    | cons c zs =>
      obtain ⟨a, v⟩ := c
      rw [List.reverse_cons, exit_append, exit_cons, exit_nil]
      cases n with
      | zero => exact ⟨ls, h, by simp [listRem.loop, dropFirst]; omega⟩
      | succ n =>
        have hneg : ¬pos ≥ 0 := by omega
        simp only [List.length_cons] at hfuel
        have h₀ : Rep ls (zs.reverse ++ (a, v) :: xs) := by simpa using h
        have hgo : ¬(pos ≠ 0 ∧ -((n + 1 : ℕ) : Int) = 0) := by omega
        obtain ⟨ls₁, h₁, hstep⟩ := listRem_step h₀ hgo value fuel i
        rw [hstep, if_neg hneg, if_neg hneg]
        have hle := length_dropFirst_le (fun c : ℕ × Bytes => decide (c.2 = value)) n zs
        by_cases hv : v = value
        · rw [if_pos hv] at h₁ ⊢
          obtain ⟨ls', h', hloop⟩ := ih (i + 1) n h₁ (by omega)
          refine ⟨ls', by simpa [dropFirst, hv] using h', ?_⟩
          rw [show -((n + 1 : ℕ) : Int) + 1 = -(n : Int) by omega, hloop]
          simp only [dropFirst, hv, decide_true, if_true, List.length_cons, Except.ok.injEq, Prod.mk.injEq, true_and]
          omega
        · rw [if_neg hv] at h₁ ⊢
          obtain ⟨ls', h', hloop⟩ := ih i (n + 1) h₁ (by omega)
          refine ⟨ls', by simpa [dropFirst, hv] using h', ?_⟩
          rw [hloop]
          simp [dropFirst, hv]

/-- The cells that `list_rem` leaves. -/
def remaining (count : Int) (value : Bytes) (cells : List (ℕ × Bytes)) : List (ℕ × Bytes) :=
  if count < 0 then (dropFirst (·.2 = value) count.natAbs cells.reverse).reverse
  else dropFirst (·.2 = value) (if count = 0 then cells.length else count.natAbs) cells

theorem remaining_eq_nil {count : Int} {value : Bytes} {cells : List (ℕ × Bytes)} :
    remaining count value cells = [] ↔
      (∀ v ∈ cells.map (·.2), v = value) ∧ (count = 0 ∨ (cells.length : Int) ≤ |count|) := by
  have hall : (∀ c ∈ cells, decide (c.2 = value) = true) ↔ ∀ v ∈ cells.map (·.2), v = value := by
    rw [List.forall_mem_map]
    simp only [decide_eq_true_eq]
  have habs : (count.natAbs : Int) = |count| := Int.natCast_natAbs count
  unfold remaining
  by_cases hneg : count < 0
  · rw [if_pos hneg, List.reverse_eq_nil_iff, dropFirst_eq_nil, List.length_reverse, ← hall]
    simp only [List.mem_reverse]
    refine and_congr_right fun _ => ?_
    omega
  · rw [if_neg hneg, dropFirst_eq_nil, hall]
    refine and_congr_right fun _ => ?_
    split
    · simp [*]
    · omega

theorem listRem_spec (h : Rep ls cells) (count : Int) (value : Bytes) :
    ∃ ls', Rep ls' (remaining count value cells) ∧
      listRem ls count value = .ok (ls', (cells.length - (remaining count value cells).length : ℕ)) := by
  have hlen := h.nodes.chain.length_le h.nodes.nodup
  unfold listRem remaining
  by_cases hc : count < 0
  · rw [if_pos hc, if_neg (by omega)]
    have hrev : Rep ls (cells.reverse.reverse ++ []) := by simpa using h
    have hfuel : cells.reverse.length < ls.nodes.length + 1 := by
      rw [List.length_reverse]
      omega
    obtain ⟨ls', hr, hloop⟩ := listRem_backward hc value 0 count.natAbs hrev hfuel
    refine ⟨ls', by simpa using hr, ?_⟩
    rw [List.reverse_reverse, ← h.nodes.tail, show -(count.natAbs : Int) = count by omega] at hloop
    simpa using hloop
  · rw [if_neg hc, if_pos (show count ≥ 0 by omega)]
    have hn : 0 < count ∧ count = (if count = 0 then cells.length else count.natAbs : ℕ) ∨
        count = 0 ∧ cells.length ≤ if count = 0 then cells.length else count.natAbs := by
      split <;> omega
    have hnil : Rep ls ([] ++ cells) := h
    obtain ⟨ls', hr, hloop⟩ := listRem_forward value 0 hnil (Nat.lt_succ_of_le hlen) hn
    rw [← h.nodes.head] at hloop
    exact ⟨ls', hr, by simpa using hloop⟩

end List
end MemKey
