import MemKey.Lib.Runs
import MemKey.Theorems.List

/-! Runs of the operations on a list. In every list that they reach the links agree in both directions, the
    operations act on the sequence of the values as those of a deque, and `list_rem` removes the occurrences of a
    value from the end that its count says. -/

namespace MemKey
open Linked Outcome

/-- The operations that change a list. -/
inductive ListOp where
  | lpush (value : Bytes)
  | rpush (value : Bytes)
  | lpop
  | rpop
  | set (id : Int) (value : Bytes)
  | rem (count : Int) (value : Bytes)

namespace ListOp

def step (ls : CList) : ListOp → Except Fault CList
  | lpush value => listLpush ls value
  | rpush value => listRpush ls value
  | lpop => do .ok (← listLpop ls).1
  | rpop => do .ok (← listRpop ls).1
  | set id value => do .ok (← listSet ls id value).1
  | rem count value => do .ok (← listRem ls count value).1

/-- What the callers of `list_set` check. -/
def Allowed (ls : CList) : ListOp → Prop
  | set id _ => 0 ≤ id ∧ id < ls.len
  | _ => True

end ListOp

/-- The lists that runs reach from `list_init`. -/
abbrev ListReached : CList → Prop := Runs.Reached ListOp.step listInit fun ls op => op.Allowed ls

/-! ### Walks in both directions -/

/-- The nodes from `cur` along `link` up to NULL, with their values; at most `n` of them. -/
def visit (link : ListNode → Option ℕ) (nodes : Heap Bytes) : Option ℕ → ℕ → Except Fault (List (ℕ × Bytes))
  | none, _ => .ok []
  | some _, 0 => .error .diverges
  | some a, n + 1 => do
    let found ← deref nodes (some a)
    .ok ((a, found.2.value) :: (← visit link nodes (link found.2) n))

namespace CList

def forward (ls : CList) : Except Fault (List (ℕ × Bytes)) := visit (·.next) ls.nodes ls.head ls.nodes.length

def backward (ls : CList) : Except Fault (List (ℕ × Bytes)) := visit (·.prev) ls.nodes ls.tail ls.nodes.length

/-- The values from head to tail. -/
def contents (ls : CList) : Except Fault (List Bytes) := do .ok ((← ls.forward).map (·.2))

/-- The value of the node that a pointer points at. -/
def valueOf (ls : CList) : Option ℕ → Except Fault (Option Bytes)
  | none => .ok none
  | some a => do .ok (some (← deref ls.nodes (some a)).2.value)

/-- The links agree: both walks visit the same `len` nodes, in opposite order. -/
structure Agrees (ls : CList) : Prop where
  walks : ∃ cells, ls.forward = .ok cells ∧ ls.backward = .ok cells.reverse ∧ ls.len = cells.length
  head_prev : ∀ a, ls.head = some a → ∃ nd, ls.nodes.read a = some nd ∧ nd.prev = none
  tail_next : ∀ a, ls.tail = some a → ∃ nd, ls.nodes.read a = some nd ∧ nd.next = none
  head_none : ls.head = none ↔ ls.len = 0
  tail_none : ls.tail = none ↔ ls.len = 0

end CList

section Deque
variable {ls ls' : CList} {nodes : Heap Bytes} {cells : List (ℕ × Bytes)} {prev next : Option ℕ} {n : ℕ}

theorem visit_none (link : ListNode → Option ℕ) : visit link nodes none n = .ok [] := by
  cases n <;> rfl

theorem visit_next (h : Chain nodes prev cells none) (hn : cells.length ≤ n) :
    visit (·.next) nodes (entry cells none) n = .ok cells := by
  induction cells generalizing prev n with
  | nil => exact visit_none _
  | cons c cells ih =>
    obtain ⟨a, v⟩ := c
    cases n with
    | zero => simp at hn
    | succ n =>
      rw [entry_cons, visit, deref_of_read h.1, ok_bind, ih h.2 (by simpa using hn)]
      rfl

theorem visit_prev (h : Chain nodes none cells next) (hn : cells.length ≤ n) :
    visit (·.prev) nodes (exit none cells) n = .ok cells.reverse := by
  induction cells using List.reverseRecOn generalizing next n with
  | nil => exact visit_none _
  | append_singleton cells c ih =>
    obtain ⟨a, v⟩ := c
    cases n with
    | zero => simp at hn
    | succ n =>
      have hread : nodes.read a = some ⟨v, next, exit none cells⟩ := h.read
      have hinit := (chain_append.mp h).1
      rw [exit_append, exit_cons, exit_nil, visit, deref_of_read hread, ok_bind,
        ih hinit (by simpa using hn), List.reverse_append]
      rfl

theorem Rep.forward (h : Rep ls cells) : ls.forward = .ok cells := by
  rw [CList.forward, h.nodes.head]
  exact visit_next h.nodes.chain (h.nodes.chain.length_le h.nodes.nodup)

theorem Rep.backward (h : Rep ls cells) : ls.backward = .ok cells.reverse := by
  rw [CList.backward, h.nodes.tail]
  exact visit_prev h.nodes.chain (h.nodes.chain.length_le h.nodes.nodup)

theorem Rep.contents (h : Rep ls cells) : ls.contents = .ok (cells.map (·.2)) := by
  rw [CList.contents, h.forward]
  rfl

theorem Rep.agrees (h : Rep ls cells) : ls.Agrees := by
  have hlen := h.len
  refine ⟨⟨cells, h.forward, h.backward, hlen⟩, ?_, ?_, ?_, ?_⟩
  · intro a ha
    cases cells with
    | nil => exact absurd (h.nodes.head.symm.trans ha) (by simp)
    | cons c cells =>
      obtain rfl : c.1 = a := Option.some.inj (h.nodes.head.symm.trans ha)
      exact ⟨_, h.nodes.chain.1, rfl⟩
  · intro a ha
    rcases List.eq_nil_or_concat cells with rfl | ⟨cells, c, rfl⟩
    · exact absurd (h.nodes.tail.symm.trans ha) (by simp)
    · rw [List.concat_eq_append] at h
      have htail := h.nodes.tail
      rw [exit_append] at htail
      obtain rfl : c.1 = a := Option.some.inj (htail.symm.trans ha)
      exact ⟨_, h.nodes.chain.read, rfl⟩
  · rw [h.nodes.head, entry_eq_none, hlen, Nat.cast_eq_zero, List.length_eq_zero_iff]
  · rw [h.nodes.tail, exit_eq_none, hlen, Nat.cast_eq_zero, List.length_eq_zero_iff]

/-! ### Runs -/

theorem listLpop_nil (h : Rep ls []) : listLpop ls = .ok (ls, none) := if_pos (by simp [h.len])

theorem listRpop_nil (h : Rep ls []) : listRpop ls = .ok (ls, none) := if_pos (by simp [h.len])

/-- Every operation returns, and leaves a list. -/
theorem ListOp.step_spec (h : Rep ls cells) (op : ListOp) : ∃ ls' cells', op.step ls = .ok ls' ∧ Rep ls' cells' := by
  cases op with
  | lpush value =>
    obtain ⟨ls', hpush, hrep⟩ := listLpush_spec h value
    exact ⟨ls', _, hpush, hrep⟩
  | rpush value =>
    obtain ⟨ls', hpush, hrep⟩ := listRpush_spec h value
    exact ⟨ls', _, hpush, hrep⟩
  | lpop =>
    cases cells with
    | nil => exact ⟨ls, [], by rw [step, listLpop_nil h]; rfl, h⟩
    | cons c cells =>
      obtain ⟨ls', hpop, hrep, -⟩ := listLpop_spec h
      exact ⟨ls', cells, by rw [step, hpop]; rfl, hrep⟩
  | rpop =>
    rcases List.eq_nil_or_concat cells with rfl | ⟨cells, c, rfl⟩
    · exact ⟨ls, [], by rw [step, listRpop_nil h]; rfl, h⟩
    · rw [List.concat_eq_append] at h
      obtain ⟨ls', hpop, hrep, -⟩ := listRpop_spec h
      exact ⟨ls', cells, by rw [step, hpop]; rfl, hrep⟩
  | set id value =>
    obtain ⟨ls', cells', hset, hrep, -⟩ := listSet_spec h id value
    exact ⟨ls', cells', by rw [step, hset]; rfl, hrep⟩
  | rem count value =>
    obtain ⟨ls', hrep, hrem⟩ := listRem_spec h count value
    exact ⟨ls', _, by rw [step, hrem]; rfl, hrep⟩

theorem ListReached.rep (h : ListReached ls) : ∃ cells, Rep ls cells := by
  refine h.invariant (fun ls => ∃ cells, Rep ls cells) ⟨[], .init⟩ fun ls op ls' ⟨cells, hrep⟩ _ hs => ?_
  obtain ⟨ls₁, cells', hstep, hrep'⟩ := op.step_spec hrep
  obtain rfl : ls₁ = ls' := Except.ok.inj (hstep.symm.trans hs)
  exact ⟨cells', hrep'⟩

/-- What a pop returns: the value of the node, or nothing if the list is empty. -/
structure Pops (ls' : CList) (nd : Option ℕ) (rest : List Bytes) (value : Option Bytes) : Prop where
  contents : ls'.contents = .ok rest
  value : ls'.valueOf nd = .ok value

theorem listLpop_pops (h : Rep ls cells) : ∃ ls' nd, listLpop ls = .ok (ls', nd) ∧
    Pops ls' nd (cells.map (·.2)).tail (cells.map (·.2)).head? := by
  cases cells with
  | nil => exact ⟨ls, none, listLpop_nil h, h.contents, rfl⟩
  | cons c cells =>
    obtain ⟨a, v⟩ := c
    obtain ⟨ls', hpop, hrep, hread⟩ := listLpop_spec h
    exact ⟨ls', some a, hpop, hrep.contents, by rw [CList.valueOf, hread]; rfl⟩

theorem listRpop_pops (h : Rep ls cells) : ∃ ls' nd, listRpop ls = .ok (ls', nd) ∧
    Pops ls' nd (cells.map (·.2)).dropLast (cells.map (·.2)).getLast? := by
  rcases List.eq_nil_or_concat cells with rfl | ⟨cells, ⟨a, v⟩, rfl⟩
  · exact ⟨ls, none, listRpop_nil h, h.contents, rfl⟩
  · rw [List.concat_eq_append] at h ⊢
    obtain ⟨ls', hpop, hrep, hread⟩ := listRpop_spec h
    refine ⟨ls', some a, hpop, ?_, ?_⟩
    · rw [hrep.contents]
      simp
    · rw [CList.valueOf, hread]
      simp

/-- In every list that a run reaches the links agree in both directions, and with respect to the values from head
    to tail a push prepends or appends its value, a pop removes and returns the first or the last one, and
    `list_set` replaces the one at its index. -/
theorem list_is_deque (h : ListReached ls) : ls.Agrees ∧ ∃ l, ls.contents = .ok l ∧
    (∀ value, ∃ ls', listLpush ls value = .ok ls' ∧ ls'.contents = .ok (value :: l)) ∧
    (∀ value, ∃ ls', listRpush ls value = .ok ls' ∧ ls'.contents = .ok (l ++ [value])) ∧
    (∃ ls' nd, listLpop ls = .ok (ls', nd) ∧ Pops ls' nd l.tail l.head?) ∧
    (∃ ls' nd, listRpop ls = .ok (ls', nd) ∧ Pops ls' nd l.dropLast l.getLast?) ∧
    ∀ id value, 0 ≤ id → id < ls.len →
      ∃ ls', listSet ls id value = .ok (ls', true) ∧ ls'.contents = .ok (l.set id.toNat value) := by
  obtain ⟨cells, hrep⟩ := h.rep
  refine ⟨hrep.agrees, cells.map (·.2), hrep.contents, fun value => ?_, fun value => ?_, listLpop_pops hrep,
    listRpop_pops hrep, fun id value h0 hlt => ?_⟩
  · obtain ⟨ls', hpush, hrep'⟩ := listLpush_spec hrep value
    exact ⟨ls', hpush, hrep'.contents⟩
  · obtain ⟨ls', hpush, hrep'⟩ := listRpush_spec hrep value
    exact ⟨ls', hpush, by rw [hrep'.contents, List.map_append]; rfl⟩
  · obtain ⟨ls', cells', hset, hrep', hvalues⟩ := listSet_spec hrep id value
    have hlen := hrep.len
    rw [decide_eq_true (by omega)] at hset
    exact ⟨ls', hset, by rw [hrep'.contents, ← hvalues]⟩

/-! ### Removals -/

/-- `l'` is `l` without its first `n` occurrences of the value, or without all of them if there are fewer. -/
def RemovesFirst (n : ℕ) (value : Bytes) (l l' : List Bytes) : Prop :=
  ∃ xs ys, l = xs ++ ys ∧ xs.count value = min n (l.count value) ∧ l' = xs.filter (· ≠ value) ++ ys

/-- The sign of the count says from which end `list_rem` removes; without a count it removes all occurrences. -/
structure Removes (count : Int) (value : Bytes) (l l' : List Bytes) (removed : ℕ) : Prop where
  first : 0 < count → RemovesFirst count.natAbs value l l' ∧ removed = min count.natAbs (l.count value)
  last : count < 0 →
    RemovesFirst count.natAbs value l.reverse l'.reverse ∧ removed = min count.natAbs (l.count value)
  all : count = 0 → l' = l.filter (· ≠ value) ∧ removed = l.count value

/-- A round of `list_rem` at a node leaves a list, without the node if it removed it, and goes on at the neighbour
    that the node had. -/
def GoesOn (value : Bytes) (ls : CList) (cells : List (ℕ × Bytes)) : Prop :=
  ∀ xs a v ys, cells = xs ++ (a, v) :: ys → ∀ pos count i fuel, ¬(pos ≠ 0 ∧ count = 0) →
    ∃ ls' count' i', Rep ls' (if v = value then xs ++ ys else xs ++ (a, v) :: ys) ∧
      listRem.loop pos value (fuel + 1) ls count (some a) i =
        listRem.loop pos value fuel ls' count' (if pos ≥ 0 then entry ys none else exit none xs) i'

section Removals
variable {value : Bytes} {l l' : List Bytes}

theorem dropFirst_removes (value : Bytes) (n : ℕ) (l : List Bytes) :
    RemovesFirst n value l (dropFirst (· = value) n l) := by
  induction l generalizing n with
  | nil => exact ⟨[], [], by cases n <;> simp [dropFirst]⟩
  | cons b l ih =>
    cases n with
    | zero => exact ⟨[], b :: l, by simp [dropFirst]⟩
    | succ n =>
      by_cases hb : b = value
      · obtain ⟨xs, ys, hl, hcount, hdrop⟩ := ih n
        refine ⟨b :: xs, ys, by rw [hl]; rfl, ?_, by simp [dropFirst, hb, hdrop]⟩
        rw [hb, List.count_cons_self, List.count_cons_self, hcount, Nat.succ_min_succ]
      · obtain ⟨xs, ys, hl, hcount, hdrop⟩ := ih (n + 1)
        refine ⟨b :: xs, ys, by rw [hl]; rfl, ?_, by simp [dropFirst, hb, hdrop]⟩
        rw [List.count_cons_of_ne hb, List.count_cons_of_ne hb, hcount]

theorem dropFirst_map (value : Bytes) (n : ℕ) (cells : List (ℕ × Bytes)) :
    (dropFirst (·.2 = value) n cells).map (·.2) = dropFirst (· = value) n (cells.map (·.2)) := by
  induction cells generalizing n with
  | nil => cases n <;> rfl
  | cons c cells ih =>
    cases n with
    | zero => rfl
    | succ n =>
      rw [List.map_cons, dropFirst, dropFirst]
      split
      · exact ih n
      · rw [List.map_cons, ih (n + 1)]

theorem RemovesFirst.length (h : RemovesFirst n value l l') : l'.length + min n (l.count value) = l.length := by
  obtain ⟨xs, ys, hl, hcount, rfl⟩ := h
  have hxs : xs.length = xs.count value + (xs.filter (· ≠ value)).length := by
    rw [← List.countP_eq_length_filter, List.count]
    simpa using List.length_eq_countP_add_countP (· == value)
  rw [← hcount, hl, List.length_append, List.length_append]
  omega

/-- Enough to remove means that nothing equal to the value stays. -/
theorem RemovesFirst.eq_filter (h : RemovesFirst n value l l') (hn : l.count value ≤ n) :
    l' = l.filter (· ≠ value) := by
  obtain ⟨xs, ys, rfl, hcount, rfl⟩ := h
  rw [Nat.min_eq_right hn, List.count_append] at hcount
  have hys : ys.filter (· ≠ value) = ys := by
    refine List.filter_eq_self.mpr fun v hv => ?_
    have hne : v ≠ value := by
      rintro rfl
      have := List.count_pos_iff.mpr hv
      omega
    simpa using hne
  rw [List.filter_append, hys]

theorem remaining_removes (count : Int) (value : Bytes) (cells : List (ℕ × Bytes)) :
    Removes count value (cells.map (·.2)) ((remaining count value cells).map (·.2))
      (cells.length - (remaining count value cells).length) := by
  refine ⟨fun hpos => ?_, fun hneg => ?_, fun hzero => ?_⟩
  · have hr := dropFirst_removes value count.natAbs (cells.map (·.2))
    rw [remaining, if_neg (by omega), if_neg (by omega)]
    rw [← dropFirst_map] at hr
    have := hr.length
    rw [List.length_map, List.length_map] at this
    exact ⟨hr, by omega⟩
  · have hr := dropFirst_removes value count.natAbs (cells.map (·.2)).reverse
    rw [remaining, if_pos hneg]
    rw [← List.map_reverse, ← dropFirst_map] at hr
    have := hr.length
    rw [List.length_map, List.length_map, List.map_reverse, List.count_reverse, List.length_reverse] at this
    rw [← List.map_reverse, ← List.map_reverse, List.reverse_reverse, List.length_reverse]
    exact ⟨hr, by omega⟩
  · have hr := dropFirst_removes value cells.length (cells.map (·.2))
    have hcount : (cells.map (·.2)).count value ≤ cells.length := by
      simpa using List.count_le_length (a := value) (l := cells.map (·.2))
    rw [remaining, if_neg (by omega), if_pos hzero]
    rw [← dropFirst_map] at hr
    have := hr.length
    rw [List.length_map, List.length_map] at this
    exact ⟨hr.eq_filter hcount, by omega⟩

/-- `list_rem` removes from a well-formed list the occurrences of the value that the count asks for, keeps the
    others in order, lowers `len` by the number removed, returns it, and walks along the list on the way. -/
theorem list_rem_removes (h : Rep ls cells) (count : Int) (value : Bytes) :
    (∃ ls' cells' removed, listRem ls count value = .ok (ls', (removed : ℕ)) ∧ Rep ls' cells' ∧
      Removes count value (cells.map (·.2)) (cells'.map (·.2)) removed ∧ ls'.len = ls.len - removed) ∧
    GoesOn value ls cells := by
  constructor
  · obtain ⟨ls', hrep, hrem⟩ := listRem_spec h count value
    refine ⟨ls', _, _, hrem, hrep, remaining_removes count value cells, ?_⟩
    have hle : (remaining count value cells).length ≤ cells.length := by
      unfold remaining
      split
      · simpa using length_dropFirst_le (fun c : ℕ × Bytes => decide (c.2 = value)) _ cells.reverse
      · exact length_dropFirst_le _ _ _
    rw [hrep.len, h.len]
    omega
  · rintro xs a v ys rfl pos count i fuel hgo
    obtain ⟨ls', hrep, hstep⟩ := listRem_step h hgo value fuel i
    by_cases hv : v = value
    · rw [if_pos hv] at hstep
      exact ⟨ls', _, _, hrep, hstep⟩
    · rw [if_neg hv] at hstep
      exact ⟨ls', _, _, hrep, hstep⟩

/-- Of two occurrences the one at the tail. -/
theorem list_rem_removes_last : ∃ ls ls' cells', ls.contents = .ok [str "a", str "b", str "a"] ∧
    listRem ls (-1) (str "a") = .ok (ls', 1) ∧ Rep ls' cells' ∧ ls'.contents = .ok [str "a", str "b"] := by
  have hrep : Rep ⟨3, some 0, some 2, [some ⟨str "a", some 1, none⟩, some ⟨str "b", some 2, some 0⟩,
      some ⟨str "a", none, some 1⟩]⟩ [(0, str "a"), (1, str "b"), (2, str "a")] :=
    ⟨⟨⟨rfl, rfl, rfl, trivial⟩, by decide, rfl, rfl⟩, rfl⟩
  obtain ⟨⟨ls', cells', removed, hrem, hrep', hremoves, -⟩, -⟩ := list_rem_removes hrep (-1) (str "a")
  obtain rfl : removed = 1 := (hremoves.last (by decide)).2
  have hrun : (do (← listRem ⟨3, some 0, some 2, [some ⟨str "a", some 1, none⟩, some ⟨str "b", some 2, some 0⟩,
      some ⟨str "a", none, some 1⟩]⟩ (-1) (str "a")).1.contents) = .ok [str "a", str "b"] := by decide +kernel
  rw [hrem] at hrun
  exact ⟨_, ls', cells', hrep.contents, hrem, hrep', hrun⟩

end Removals
end Deque

/-- A value pushed at the head, another at the tail, the first one replaced. -/
theorem list_is_deque_three : ∃ ls, ListReached ls ∧ ls.contents = .ok [str "c", str "b"] ∧ ls.Agrees := by
  have h₁ : ListOp.step listInit (.lpush (str "a")) = .ok ⟨1, some 0, some 0, [some ⟨str "a", none, none⟩]⟩ := by
    decide
  have h₂ : ListOp.step ⟨1, some 0, some 0, [some ⟨str "a", none, none⟩]⟩ (.rpush (str "b")) =
      .ok ⟨2, some 0, some 1, [some ⟨str "a", some 1, none⟩, some ⟨str "b", none, some 0⟩]⟩ := by decide
  have h₃ : ListOp.step ⟨2, some 0, some 1, [some ⟨str "a", some 1, none⟩, some ⟨str "b", none, some 0⟩]⟩
      (.set 0 (str "c")) =
      .ok ⟨2, some 0, some 1, [some ⟨str "c", some 1, none⟩, some ⟨str "b", none, some 0⟩]⟩ := by decide
  have one : ListReached _ := .step (i := .lpush (str "a")) .init trivial h₁
  have two : ListReached _ := .step (i := .rpush (str "b")) one trivial h₂
  have three : ListReached _ := .step (i := .set 0 (str "c")) two ⟨by decide, by decide⟩ h₃
  exact ⟨_, three, by decide, (list_is_deque three).1⟩

end MemKey
