import MemKey.Pointer.List
import MemKey.Theorems.Abstraction

/-! The lists of `list.c` in memory: what a list owns, and what each function does to it. -/

namespace MemKey.Pointer
open Linked Memory

/-- The nodes of a list, each with its string, linked both ways after `prev` and before `next`. A cell is
    the address of the node, that of its string, and the string. -/
def nodesAt (prev : Option ℕ) : List (ℕ × ℕ × Bytes) → Option ℕ → Owned
  | [], _ => 0
  | (a, v, s) :: cells, next =>
    own a (.node ⟨v, entry cells next, prev⟩) + (own v (.chars s) + nodesAt (some a) cells next)

/-- A list with its nodes. -/
def listAt (p : ℕ) (cells : List (ℕ × ℕ × Bytes)) : Owned :=
  own p (.list ⟨cells.length, entry cells none, exit none cells⟩) + nodesAt none cells none

/-- A node outside of every list. -/
def loneAt (a v : ℕ) (s : Bytes) : Owned := own a (.node ⟨v, none, none⟩) + own v (.chars s)

section List
variable {m n : Owned} {a p v : ℕ} {d : Node ℕ} {q prev next : Option ℕ} {s : Bytes} {Q : Unit → Owned → Prop}
  {xs ys cells : List (ℕ × ℕ × Bytes)}

theorem nodesAt_append : nodesAt prev (xs ++ ys) next =
    nodesAt prev xs (entry ys next) + nodesAt (exit prev xs) ys next := by
  induction xs generalizing prev with
  | nil => simp [nodesAt]
  | cons c xs ih =>
    obtain ⟨a, v, s⟩ := c
    simp only [List.cons_append, nodesAt, entry_append, exit_cons, ih, add_assoc]

theorem does_setNext (hm : m = own a (.node d) + n) (h : Q () (own a (.node { d with next := q }) + n)) :
    Does (setNext (some a) q) m Q :=
  .seq (.pure (.seq (.loadAs hm rfl (.store hm h))))

theorem does_setPrev (hm : m = own a (.node d) + n) (h : Q () (own a (.node { d with prev := q }) + n)) :
    Does (setPrev (some a) q) m Q :=
  .seq (.pure (.seq (.loadAs hm rfl (.store hm h))))

theorem does_nodeInit {Q : ℕ → Owned → Prop}
    (h : ∀ a v, Q a (own a (.node ⟨v, none, none⟩) + (own v (.chars s) + m))) : Does (nodeInit s) m Q :=
  .seq (.alloc fun v => .alloc fun a => h a v)

theorem does_nodeFree {f : Owned} (hm : m = own a (.node d) + n) (hn : n = own d.value (.chars s) + f) (h : Q () f) :
    Does (nodeFree a) m Q := by
  have hv : m = own d.value (.chars s) + (own a (.node d) + f) := by rw [hm, hn, add_left_comm]
  exact .seq (.loadAs hm rfl (.seq (.release hv (.release rfl h))))

theorem does_unlink (hm : m = own a (.node d) + n) (h : Q () (own a (.node ⟨d.value, none, none⟩) + n)) :
    Does (unlink a) m Q :=
  .seq (does_setPrev hm (does_setNext rfl h))

theorem does_listInit : Does listInit 0 fun p m => m = listAt p [] := .alloc fun _ => rfl

/-! ### Pushes -/

theorem listLpush_does : Does (listLpush p s) (listAt p cells) fun _ m => ∃ a v, m = listAt p ((a, v, s) :: cells) := by
  refine .seq (does_nodeInit fun a v => .seq (.loadAs (front₃ ..) rfl ?_))
  cases cells with
  | nil =>
    refine .store (front₃ ..) ⟨a, v, ?_⟩
    simp [listAt, nodesAt]
  | cons c cells =>
    obtain ⟨b, w, t⟩ := c
    rw [if_pos (by simp)]
    refine .seq (does_setNext rfl (.seq (does_setPrev (front₄ ..) (.store (front₄ ..) ⟨a, v, ?_⟩))))
    simp [listAt, nodesAt]
    abel

theorem listRpush_does : Does (listRpush p s) (listAt p cells) fun _ m => ∃ a v, m = listAt p (cells ++ [(a, v, s)]) := by
  refine .seq (does_nodeInit fun a v => .seq (.loadAs (front₃ ..) rfl ?_))
  rcases List.eq_nil_or_concat cells with rfl | ⟨xs, ⟨b, w, t⟩, rfl⟩
  · refine .store (front₃ ..) ⟨a, v, ?_⟩
    simp [listAt, nodesAt]
  · rw [List.concat_eq_append, if_pos (by simp)]
    simp only [listAt, nodesAt_append, nodesAt, entry_append, entry_cons, entry_nil, exit_append, exit_cons, exit_nil]
    refine .seq (does_setPrev rfl (.seq (does_setNext (front₅ ..) (.store (front₄ ..) ⟨a, v, ?_⟩))))
    simp [add_assoc]
    abel

/-! ### Pops -/

theorem listLpop_does : Does (listLpop p) (listAt p ((a, v, s) :: cells)) fun r m =>
    r = some a ∧ m = listAt p cells + loneAt a v s := by
  refine .seq (.loadAs rfl rfl ?_)
  rw [if_neg (by simp)]
  refine .seq (.pure ?_)
  cases cells with
  | nil =>
    rw [if_neg (by simp)]
    refine .seq (.store rfl (.seq (does_unlink (add_left_comm ..) (.pure ⟨rfl, ?_⟩))))
    simp [listAt, nodesAt, loneAt]
    abel
  | cons c cells =>
    obtain ⟨b, w, t⟩ := c
    rw [if_pos (by simp)]
    refine .seq (.loadAs (add_left_comm ..) rfl (.seq (does_setPrev (front₄ ..) (.seq (.store (add_left_comm ..) ?_)))))
    refine .seq (does_unlink (front₃ ..) (.pure ⟨rfl, ?_⟩))
    simp [listAt, nodesAt, loneAt]
    abel

theorem listRpop_does : Does (listRpop p) (listAt p (cells ++ [(a, v, s)])) fun r m =>
    r = some a ∧ m = listAt p cells + loneAt a v s := by
  simp only [listAt, nodesAt_append, nodesAt, entry_append, entry_cons, entry_nil, exit_append, exit_cons, exit_nil]
  refine .seq (.loadAs rfl rfl ?_)
  rw [if_neg (by simp)]
  refine .seq (.pure ?_)
  rcases List.eq_nil_or_concat cells with rfl | ⟨xs, ⟨b, w, t⟩, rfl⟩
  · rw [if_neg (by simp)]
    refine .seq (.store rfl (.seq (does_unlink (front₃ ..) (.pure ⟨rfl, ?_⟩))))
    simp [nodesAt, loneAt]
    abel
  · rw [List.concat_eq_append, if_pos (by simp; omega)]
    have hlen : (((xs ++ [(b, w, t)] ++ [(a, v, s)]).length : ℕ) : Int) - 1 = (xs ++ [(b, w, t)]).length := by
      simp
      omega
    simp only [nodesAt_append, nodesAt, entry_append, entry_cons, entry_nil, exit_append, exit_cons, exit_nil, add_assoc,
      zero_add, hlen]
    refine .seq (.loadAs (front₅ ..) rfl ?_)
    refine .seq (does_setNext (front₃ ..) (.seq (.store (add_left_comm ..) ?_)))
    refine .seq (does_unlink (front₅ ..) (.pure ⟨rfl, ?_⟩))
    simp only [loneAt]
    abel

/-! ### Changes of one string -/

theorem does_listSkip {Q : Option ℕ → Owned → Prop} (k : ℕ) (hm : m = nodesAt prev cells none + n)
    (h : Q (entry (cells.drop k) none) m) : Does (listSkip (entry cells none) k) m Q := by
  induction k generalizing prev cells n with
  | zero => exact .pure h
  | succ k ih =>
    cases cells with
    | nil => exact .pure h
    | cons c cells =>
      obtain ⟨a, v, s⟩ := c
      rw [nodesAt, add_assoc] at hm
      have hrest : m = nodesAt (some a) cells none +
          (own a (.node ⟨v, entry cells none, prev⟩) + (own v (.chars s) + n)) := by
        rw [hm]
        abel
      exact .seq (.loadAs hm rfl (ih hrest h))

theorem listSet_does_hit {id : Int} (hid : xs.length = id.toNat) {t : Bytes} :
    Does (listSet p id t) (listAt p (xs ++ (a, v, s) :: ys)) fun r m =>
      r = true ∧ ∃ w, m = listAt p (xs ++ (a, w, t) :: ys) := by
  refine .seq (.loadAs rfl rfl (.seq (does_listSkip _ (add_comm ..) ?_)))
  rw [← hid, List.drop_left, entry_cons]
  simp only [listAt, nodesAt_append, nodesAt, entry_append, entry_cons, exit_append, exit_cons]
  refine .seq (.loadAs (front₃ ..) rfl (.seq (.release (front₄ ..) (.seq (.alloc fun w => ?_)))))
  refine .seq (.store (front₄ ..) (.pure ⟨rfl, w, ?_⟩))
  simp
  abel

theorem listSet_does_miss {id : Int} (hid : cells.length ≤ id.toNat) {t : Bytes} :
    Does (listSet p id t) (listAt p cells) fun r m => r = false ∧ m = listAt p cells := by
  refine .seq (.loadAs rfl rfl (.seq (does_listSkip _ (add_comm ..) ?_)))
  rw [List.drop_eq_nil_of_le hid]
  exact .pure ⟨rfl, rfl⟩

/-! ### Removals -/

theorem mem_nodesAt {c : ℕ × ℕ × Bytes} (h : c ∈ cells) : ∃ d, (c.1, .node d) ∈ nodesAt prev cells next := by
  obtain ⟨xs, ys, rfl⟩ := List.append_of_mem h
  rw [nodesAt_append, nodesAt]
  exact ⟨_, Multiset.mem_add.mpr (.inr (Multiset.mem_add.mpr (.inl (Multiset.mem_singleton_self _))))⟩

/-- The nodes of a list lie at different addresses. -/
theorem does_apart {α : Type} {c : Prog α} {Q : α → Owned → Prop}
    (h : a ∉ xs.map Prod.fst → a ∉ ys.map Prod.fst → Does c (listAt p (xs ++ (a, v, s) :: ys)) Q) :
    Does c (listAt p (xs ++ (a, v, s) :: ys)) Q := by
  have hm : listAt p (xs ++ (a, v, s) :: ys) = own a (.node ⟨v, entry ys none, exit none xs⟩) +
      (nodesAt none xs (some a) + (nodesAt (some a) ys none + (own v (.chars s) +
        own p (.list ⟨(xs ++ (a, v, s) :: ys).length, entry xs (some a), exit (some a) ys⟩)))) := by
    simp only [listAt, nodesAt_append, nodesAt, entry_append, entry_cons, exit_append, exit_cons]
    abel
  refine .apart hm fun hapart => h (fun hmem => ?_) fun hmem => ?_
  · obtain ⟨c, hc, rfl⟩ := List.mem_map.mp hmem
    obtain ⟨d, hd⟩ := mem_nodesAt hc
    exact hapart _ (Multiset.mem_add.mpr (.inl hd))
  · obtain ⟨c, hc, rfl⟩ := List.mem_map.mp hmem
    obtain ⟨d, hd⟩ := mem_nodesAt hc
    exact hapart _ (Multiset.mem_add.mpr (.inr (Multiset.mem_add.mpr (.inl hd))))

/-- A list without one of its nodes, which still has its links and its string and is still counted. -/
def unlinkedAt (p : ℕ) (xs : List (ℕ × ℕ × Bytes)) (a v : ℕ) (s : Bytes) (ys : List (ℕ × ℕ × Bytes)) : Owned :=
  own p (.list ⟨(xs ++ (a, v, s) :: ys).length, entry (xs ++ ys) none, exit none (xs ++ ys)⟩) +
    (own a (.node ⟨v, entry ys none, exit none xs⟩) + (own v (.chars s) + nodesAt none (xs ++ ys) none))

theorem nodeDel_only : Does (nodeDel p (some a)) (listAt p [(a, v, s)]) fun _ m => m = unlinkedAt p [] a v s [] := by
  refine .seq (.loadAs rfl rfl ?_)
  rw [if_neg (by simp), if_pos (by simp)]
  exact .store rfl rfl

theorem nodeDel_head {b w : ℕ} {t : Bytes} :
    Does (nodeDel p (some a)) (listAt p ((a, v, s) :: (b, w, t) :: ys)) fun _ m =>
      m = unlinkedAt p [] a v s ((b, w, t) :: ys) := by
  refine .seq (.loadAs rfl rfl ?_)
  rw [if_neg (by simp), if_neg (by simp; omega), if_pos (by simp)]
  refine .seq (.pure (.seq (.loadAs (add_left_comm ..) rfl (.seq (.store rfl ?_)))))
  refine does_setPrev (front₄ ..) ?_
  simp [unlinkedAt, nodesAt]
  abel

theorem nodeDel_tail {b w : ℕ} {t : Bytes} :
    Does (nodeDel p (some a)) (listAt p (xs ++ [(b, w, t)] ++ [(a, v, s)])) fun _ m =>
      m = unlinkedAt p (xs ++ [(b, w, t)]) a v s [] := by
  refine does_apart fun ha _ => .seq (.loadAs rfl rfl ?_)
  have hhead : entry (xs ++ [(b, w, t)] ++ [(a, v, s)]) none = entry (xs ++ [(b, w, t)]) (some a) := by
    rw [entry_append, entry_cons]
  have hne : some a ≠ entry (xs ++ [(b, w, t)]) (some a) := fun heq => ha (entry_mem (by simp) heq.symm)
  rw [if_neg (not_or.mpr ⟨mt entry_eq_none.mp (by simp), nofun⟩), if_neg (by simp; omega), if_neg (by rwa [hhead]),
    if_pos (by simp)]
  simp only [listAt, nodesAt_append, nodesAt, entry_append, entry_cons, entry_nil, exit_append, exit_cons, exit_nil,
    add_assoc, zero_add]
  refine .seq (.pure (.seq (.loadAs (front₅ ..) rfl (.seq (.store rfl ?_)))))
  refine does_setNext (front₃ ..) ?_
  simp only [unlinkedAt, nodesAt_append, nodesAt, entry_append, entry_cons, entry_nil, exit_append, exit_cons, exit_nil,
    List.append_nil]
  abel

theorem nodeDel_middle {b w d x : ℕ} {t u : Bytes} :
    Does (nodeDel p (some a)) (listAt p (xs ++ [(b, w, t)] ++ (a, v, s) :: (d, x, u) :: ys)) fun _ m =>
      m = unlinkedAt p (xs ++ [(b, w, t)]) a v s ((d, x, u) :: ys) := by
  refine does_apart fun ha ha' => .seq (.loadAs rfl rfl ?_)
  have hhead : entry (xs ++ [(b, w, t)] ++ (a, v, s) :: (d, x, u) :: ys) none = entry (xs ++ [(b, w, t)]) (some a) := by
    rw [entry_append, entry_cons]
  have htail : exit none (xs ++ [(b, w, t)] ++ (a, v, s) :: (d, x, u) :: ys) = exit (some a) ((d, x, u) :: ys) := by
    rw [exit_append, exit_cons]
  have hne : some a ≠ entry (xs ++ [(b, w, t)]) (some a) := fun heq => ha (entry_mem (by simp) heq.symm)
  have hne' : some a ≠ exit (some a) ((d, x, u) :: ys) := fun heq => ha' (exit_mem (by simp) heq.symm)
  have hm : listAt p (xs ++ [(b, w, t)] ++ (a, v, s) :: (d, x, u) :: ys) =
      own b (.node ⟨w, some a, exit none xs⟩) + (own a (.node ⟨v, some d, some b⟩) +
        (own d (.node ⟨x, entry ys none, some a⟩) + (nodesAt none xs (some b) + (own w (.chars t) +
          (own v (.chars s) + (own x (.chars u) + (nodesAt (some d) ys none +
            own p (.list ⟨(xs ++ [(b, w, t)] ++ (a, v, s) :: (d, x, u) :: ys).length, entry xs (some b),
              exit (some d) ys⟩)))))))) := by
    simp only [listAt, nodesAt_append, nodesAt, entry_append, entry_cons, entry_nil, exit_append, exit_cons, exit_nil]
    abel
  rw [if_neg (not_or.mpr ⟨mt entry_eq_none.mp (by simp), nofun⟩), if_neg (by simp; omega), if_neg (by rwa [hhead]),
    if_neg (by rwa [htail]), hm]
  refine .seq (.pure (.seq (.loadAs (add_left_comm ..) rfl (.seq (does_setNext rfl ?_)))))
  refine .seq (.pure (.seq (.loadAs (add_left_comm ..) rfl (does_setPrev (front₃ ..) ?_))))
  simp only [unlinkedAt, nodesAt_append, nodesAt, entry_append, entry_cons, entry_nil, exit_append, exit_cons, exit_nil]
  abel

theorem nodeDel_does : Does (nodeDel p (some a)) (listAt p (xs ++ (a, v, s) :: ys)) fun _ m =>
    m = unlinkedAt p xs a v s ys := by
  rcases List.eq_nil_or_concat xs with rfl | ⟨xs, ⟨b, w, t⟩, rfl⟩
  · cases ys with
    | nil => exact nodeDel_only
    | cons c ys => exact nodeDel_head
  · rw [List.concat_eq_append] at *
    cases ys with
    | nil => exact nodeDel_tail
    | cons c ys => exact nodeDel_middle

/-- One round of the loop of `list_rem`, in either direction. -/
theorem listRem_step_does {pos count : Int} (hgo : ¬(pos ≠ 0 ∧ count = 0)) {value : Bytes} {fuel : ℕ} {i : Int}
    {Q : Int → Owned → Prop}
    (h : Does (if s = value then
        listRem.loop p pos value fuel (if pos ≥ 0 then count - 1 else count + 1)
          (if pos ≥ 0 then entry ys none else exit none xs) (i + 1)
        else listRem.loop p pos value fuel count (if pos ≥ 0 then entry ys none else exit none xs) i)
      (listAt p (if s = value then xs ++ ys else xs ++ (a, v, s) :: ys)) Q) :
    Does (listRem.loop p pos value (fuel + 1) count (some a) i) (listAt p (xs ++ (a, v, s) :: ys)) Q := by
  have hm : listAt p (xs ++ (a, v, s) :: ys) = own a (.node ⟨v, entry ys none, exit none xs⟩) +
      (own v (.chars s) + (nodesAt none xs (some a) + (nodesAt (some a) ys none +
        own p (.list ⟨(xs ++ (a, v, s) :: ys).length, entry xs (some a), exit (some a) ys⟩)))) := by
    simp only [listAt, nodesAt_append, nodesAt, entry_append, entry_cons, exit_append, exit_cons]
    abel
  rw [listRem.loop, if_neg hgo]
  refine .seq (.loadAs hm rfl (.seq (.loadAs (hm.trans (add_left_comm ..)) rfl ?_)))
  by_cases hs : s = value
  · simp only [hs, if_true] at h ⊢
    subst hs
    refine .seq (nodeDel_does.mono ?_)
    rintro _ _ rfl
    refine .seq (.loadAs rfl rfl (.seq (.store rfl (.seq (.loadAs (add_left_comm ..) rfl (.seq ?_))))))
    refine does_nodeFree (add_left_comm ..) (add_left_comm ..) ?_
    have hlen : (((xs ++ (a, v, s) :: ys).length : ℕ) : Int) - 1 = (xs ++ ys).length := by
      simp
      omega
    dsimp only
    rw [hlen]
    exact h
  · simp only [hs, if_false] at h ⊢
    exact h

/-- The strings of the nodes. -/
def texts (cells : List (ℕ × ℕ × Bytes)) : List Bytes := cells.map fun c => c.2.2

/-- The list of the model and the list in memory have the same strings. -/
def Mirrors (ls : CList) (cells : List (ℕ × ℕ × Bytes)) : Prop := Strings ls (texts cells)

theorem mirrors_append {ls : CList} {us ws : List (ℕ × Bytes)} (h : Rep ls (us ++ ws)) (hx : us.map Prod.snd = texts xs)
    (hy : ws.map Prod.snd = texts ys) : Mirrors ls (xs ++ ys) :=
  ⟨us ++ ws, h, by rw [List.map_append, hx, hy, texts, texts, texts, List.map_append]⟩

/-- The loops of `list_rem` agree, between the cells before the next node and those from it on: going
    forward, the next node is the first of `ys`, and going backward, it is the last of `xs`. -/
def RemAgrees (p : ℕ) (pos : Int) (value : Bytes) (ls' : CList) (r : Int) (fuel : ℕ) : Prop :=
  ∀ {ls us ws xs ys count i fuel'}, Rep ls (us ++ ws) → us.map Prod.snd = texts xs → ws.map Prod.snd = texts ys →
    MemKey.listRem.loop pos value fuel ls count (if pos ≥ 0 then entry ws none else exit none us) i = .ok (ls', r) →
    (if pos ≥ 0 then ys.length else xs.length) < fuel' →
    Does (listRem.loop p pos value fuel' count (if pos ≥ 0 then entry ys none else exit none xs) i) (listAt p (xs ++ ys))
      fun r' m => r' = r ∧ ∃ cells, m = listAt p cells ∧ Mirrors ls' cells

/-- A round at a node, wherever the loop comes from. -/
theorem RemAgrees.round {ls ls' : CList} {us ws : List (ℕ × Bytes)} {pos count r i : Int} {value : Bytes}
    {b fuel fuel' : ℕ} (ih : RemAgrees p pos value ls' r fuel) (h : Rep ls (us ++ (b, s) :: ws))
    (hx : us.map Prod.snd = texts xs) (hy : ws.map Prod.snd = texts ys)
    (hloop : MemKey.listRem.loop pos value (fuel + 1) ls count (some b) i = .ok (ls', r))
    (hfuel : (if pos ≥ 0 then ys.length else xs.length) < fuel') :
    Does (listRem.loop p pos value (fuel' + 1) count (some a) i) (listAt p (xs ++ (a, v, s) :: ys))
      fun r' m => r' = r ∧ ∃ cells, m = listAt p cells ∧ Mirrors ls' cells := by
  by_cases hgo : pos ≠ 0 ∧ count = 0
  · rw [MemKey.listRem.loop, if_pos hgo] at hloop
    cases hloop
    rw [listRem.loop, if_pos hgo]
    exact .pure ⟨rfl, _, rfl, mirrors_append h hx (by simp [hy, texts])⟩
  · obtain ⟨ls₁, h₁, hstep⟩ := MemKey.listRem_step h hgo value fuel i
    rw [hstep] at hloop
    refine listRem_step_does hgo ?_
    by_cases hs : s = value
    · simp only [hs, if_true] at h₁ hloop ⊢
      exact ih h₁ hx hy hloop hfuel
    · simp only [hs, if_false] at h₁ hloop ⊢
      by_cases hpos : pos ≥ 0
      · have h₂ : Rep ls₁ ((us ++ [(b, s)]) ++ ws) := by simpa using h₁
        have hx' : (us ++ [(b, s)]).map Prod.snd = texts (xs ++ [(a, v, s)]) := by simp [hx, texts]
        simp only [RemAgrees, hpos, if_true] at ih hloop hfuel ⊢
        simpa using ih h₂ hx' hy hloop hfuel
      · have hy' : ((b, s) :: ws).map Prod.snd = texts ((a, v, s) :: ys) := by simp [hy, texts]
        simp only [RemAgrees, hpos, if_false] at ih hloop hfuel ⊢
        exact ih h₁ hx hy' hloop hfuel

theorem remAgrees {ls' : CList} {pos r : Int} {value : Bytes} (fuel : ℕ) : RemAgrees p pos value ls' r fuel := by
  induction fuel with
  | zero =>
    intro ls us ws xs ys count i fuel' h hx hy hloop
    cases hloop
  | succ fuel ih =>
    intro ls us ws xs ys count i fuel' h hx hy hloop hfuel
    obtain ⟨fuel', rfl⟩ : ∃ k, fuel' = k + 1 := ⟨fuel' - 1, by omega⟩
    by_cases hpos : pos ≥ 0
    · simp only [hpos, if_true] at hloop hfuel ⊢
      cases ys with
      | nil =>
        obtain rfl : ws = [] := by simpa [texts] using hy
        cases hloop
        exact .pure ⟨rfl, _, rfl, mirrors_append h hx hy⟩
      | cons c ys =>
        obtain ⟨a, v, s⟩ := c
        cases ws with
        | nil => simp [texts] at hy
        | cons w ws =>
          obtain ⟨b, t⟩ := w
          obtain ⟨rfl, hy'⟩ := List.cons.inj hy
          exact ih.round h hx hy' hloop (by simpa [hpos] using hfuel)
    · simp only [hpos, if_false] at hloop hfuel ⊢
      rcases List.eq_nil_or_concat xs with rfl | ⟨xs, ⟨a, v, s⟩, rfl⟩
      · obtain rfl : us = [] := by simpa [texts] using hx
        cases hloop
        exact .pure ⟨rfl, _, rfl, mirrors_append h hx hy⟩
      · rcases List.eq_nil_or_concat us with rfl | ⟨us, ⟨b, t⟩, rfl⟩
        · simp [texts] at hx
        · simp only [List.concat_eq_append, List.append_assoc, List.singleton_append, exit_append, exit_cons, exit_nil,
            List.length_append, List.length_singleton] at h hloop hfuel ⊢
          simp only [texts, List.concat_eq_append, List.map_append, List.map_cons, List.map_nil] at hx
          obtain ⟨hx', ht⟩ := List.append_inj' hx rfl
          obtain rfl : t = s := by simpa using ht
          exact ih.round h hx' hy hloop (by simpa [hpos] using hfuel)

theorem listRem_does {ls ls' : CList} {count r : Int} {value : Bytes} (h : Mirrors ls cells)
    (hrem : MemKey.listRem ls count value = .ok (ls', r)) :
    Does (listRem p count value) (listAt p cells) fun r' m => r' = r ∧
      ∃ cells', m = listAt p cells' ∧ Mirrors ls' cells' := by
  obtain ⟨us, hrep, hus⟩ := h
  rw [MemKey.listRem, hrep.nodes.head, hrep.nodes.tail] at hrem
  refine .seq (.loadAs rfl rfl ?_)
  have hsim : RemAgrees p count value ls' r (ls.nodes.length + 1) := remAgrees _
  by_cases hc : count ≥ 0
  · simp only [RemAgrees, hc, if_true] at hsim hrem ⊢
    have hnil : ([] : List (ℕ × Bytes)).map Prod.snd = texts [] := rfl
    exact hsim hrep hnil hus hrem (by simp)
  · simp only [RemAgrees, hc, if_false] at hsim hrem ⊢
    have hnil : ([] : List (ℕ × Bytes)).map Prod.snd = texts [] := rfl
    have hrep' : Rep ls (us ++ []) := by simpa using hrep
    have hfuel : cells.length < (cells.length : Int).toNat + 1 := by simp
    simpa using hsim hrep' hus hnil hrem hfuel

/-! ### The end of a list -/

theorem listFree_loop_does {fuel : ℕ} {h t : Option ℕ} (hfuel : cells.length < fuel) :
    Does (listFree.loop p fuel (entry cells none)) (own p (.list ⟨cells.length, h, t⟩) + nodesAt prev cells none)
      fun _ m => ∃ b, m = own p b + 0 := by
  induction cells generalizing prev fuel with
  | nil =>
    obtain ⟨fuel, rfl⟩ : ∃ k, fuel = k + 1 := ⟨fuel - 1, by omega⟩
    exact .seq (.loadAs rfl rfl (.seq (.store rfl (.pure ⟨_, rfl⟩))))
  | cons c cells ih =>
    obtain ⟨a, v, s⟩ := c
    obtain ⟨fuel, rfl⟩ : ∃ k, fuel = k + 1 := ⟨fuel - 1, by omega⟩
    have hlen : (((a, v, s) :: cells).length : Int) - 1 = cells.length := by simp
    refine .seq (.loadAs rfl rfl (.seq (.store rfl ?_)))
    rw [if_neg (by simp; omega), hlen]
    refine .seq (.pure (.seq (.loadAs (add_left_comm ..) rfl (.seq ?_))))
    exact does_nodeFree (add_left_comm ..) (add_left_comm ..) (ih (by simpa using hfuel))

theorem listFree_does : Does (listFree (some p)) (listAt p cells) fun _ m => m = 0 := by
  refine .seq (.loadAs rfl rfl (.seq ((listFree_loop_does (by simp)).mono ?_)))
  rintro _ _ ⟨b, rfl⟩
  exact .release rfl rfl

/-! ### The lists of the model -/

section Mirrors
variable {ls ls' : CList}

theorem does_listPush {value : Bytes} {dir : ListDirection} (h : Mirrors ls cells)
    (hpush : MemKey.listPush ls value dir = .ok ls') :
    Does (listPush p value dir) (listAt p cells) fun _ m => ∃ cells', m = listAt p cells' ∧ Mirrors ls' cells' := by
  obtain ⟨ls₁, hpush₁, hstr⟩ := Strings.push_spec h value dir
  rw [hpush] at hpush₁
  cases hpush₁
  cases dir with
  | LEFT =>
    refine listLpush_does.mono ?_
    rintro _ _ ⟨a, v, rfl⟩
    exact ⟨_, rfl, hstr⟩
  | RIGHT =>
    refine listRpush_does.mono ?_
    rintro _ _ ⟨a, v, rfl⟩
    exact ⟨_, rfl, by simpa [Mirrors, texts, Store.pushed] using hstr⟩

theorem mirrors_init : Mirrors MemKey.listInit [] := Strings.init

theorem deref_eq_ok {nodes : Heap Bytes} {q : Option ℕ} {b : ℕ} {nd : ListNode} (h : MemKey.deref nodes q = .ok (b, nd)) :
    q = some b := by
  cases q with
  | none => cases h
  | some a =>
    unfold MemKey.deref at h
    cases hread : nodes.read a <;> simp [hread] at h
    rw [h.1]

theorem does_listPop {b : ℕ} {q : Option ℕ} {dir : ListDirection} {nd : ListNode} (h : Mirrors ls cells)
    (hpop : MemKey.listPop ls dir = .ok (ls', q)) (hread : MemKey.deref ls'.nodes q = .ok (b, nd)) :
    Does (listPop p dir) (listAt p cells) fun r m => ∃ a v cells', r = some a ∧
      m = listAt p cells' + loneAt a v nd.value ∧ Mirrors ls' cells' := by
  obtain rfl := deref_eq_ok hread
  have hne : texts cells ≠ [] := by
    intro hnil
    have hlen := Strings.len h
    cases dir <;> simp [MemKey.listPop, MemKey.listLpop, MemKey.listRpop, hnil, hlen] at hpop
  obtain ⟨ls₁, b₁, s₁, hpop₁, hstr, hread₁, hlast⟩ := Strings.pop_spec h hne dir
  rw [hpop] at hpop₁
  cases hpop₁
  rw [hread] at hread₁
  cases hread₁
  cases dir with
  | LEFT =>
    cases cells with
    | nil => exact absurd rfl hne
    | cons c cells =>
      obtain ⟨a, v, s⟩ := c
      obtain rfl : s = s₁ := by simpa [Store.popped, texts] using hlast
      refine listLpop_does.mono ?_
      rintro _ _ ⟨rfl, rfl⟩
      exact ⟨a, v, cells, rfl, rfl, hstr⟩
  | RIGHT =>
    rcases List.eq_nil_or_concat cells with rfl | ⟨cells, ⟨a, v, s⟩, rfl⟩
    · exact absurd rfl hne
    · rw [List.concat_eq_append] at *
      obtain rfl : s = s₁ := by simpa [Store.popped, texts] using hlast
      refine listRpop_does.mono ?_
      rintro _ _ ⟨rfl, rfl⟩
      exact ⟨a, v, cells, rfl, rfl, by simpa [Mirrors, Store.popped, texts] using hstr⟩

theorem does_listSet {id : Int} {value : Bytes} {r : Bool} (h : Mirrors ls cells)
    (hset : MemKey.listSet ls id value = .ok (ls', r)) :
    Does (listSet p id value) (listAt p cells) fun r' m => r' = r ∧
      ∃ cells', m = listAt p cells' ∧ Mirrors ls' cells' := by
  obtain ⟨ls₁, hset₁, hstr⟩ := Strings.set_spec h id value
  rw [hset] at hset₁
  cases hset₁
  have hlen : (texts cells).length = cells.length := List.length_map ..
  by_cases hid : id.toNat < cells.length
  · obtain ⟨xs, ⟨a, v, s⟩, ys, rfl, hxs⟩ : ∃ xs c ys, cells = xs ++ c :: ys ∧ xs.length = id.toNat :=
      ⟨cells.take id.toNat, cells[id.toNat], cells.drop (id.toNat + 1),
        by rw [List.getElem_cons_drop, List.take_append_drop], by simp; omega⟩
    refine (listSet_does_hit hxs).mono ?_
    rintro _ _ ⟨rfl, w, rfl⟩
    refine ⟨by rw [hlen]; exact (decide_eq_true hid).symm, _, rfl, ?_⟩
    simpa [Mirrors, texts, ← hxs] using hstr
  · refine (listSet_does_miss (by omega)).mono ?_
    rintro _ _ ⟨rfl, rfl⟩
    refine ⟨by rw [hlen]; exact (decide_eq_false hid).symm, _, rfl, ?_⟩
    rwa [List.set_eq_of_length_le (by omega)] at hstr

end Mirrors

end List

end MemKey.Pointer
