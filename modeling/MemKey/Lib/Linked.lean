import Mathlib.Data.List.Nodup
import Mathlib.Data.List.Perm.Subperm

/-! Doubly linked lists in a heap of nodes: when the nodes of a heap represent a sequence of cells, and what
    writes to the heap do to that. -/

namespace Linked

variable {α : Type}

/-- A node; `none` is NULL. -/
structure Node (α : Type) where
  value : α
  next : Option ℕ
  prev : Option ℕ
  deriving DecidableEq, Repr

/-- The nodes by address; a freed node is `none`. -/
abbrev Heap (α : Type) := List (Option (Node α))

namespace Heap

def read (h : Heap α) (a : ℕ) : Option (Node α) := h[a]?.join

def write (h : Heap α) (a : ℕ) (nd : Node α) : Heap α := h.set a (some nd)

def free (h : Heap α) (a : ℕ) : Heap α := h.set a none

/-- A new node lies at the address `h.length`. -/
def alloc (h : Heap α) (nd : Node α) : Heap α := h ++ [some nd]

variable {h : Heap α} {a b : ℕ} {nd nd' : Node α}

theorem lt_of_read (hr : h.read a = some nd) : a < h.length := by
  by_contra hge
  simp [read, List.getElem?_eq_none (Nat.le_of_not_lt hge)] at hr

theorem read_write_self (hr : h.read a = some nd') : (h.write a nd).read a = some nd := by
  simp [read, write, List.getElem?_set_self (lt_of_read hr)]

theorem read_write_ne (hne : b ≠ a) : (h.write a nd).read b = h.read b := by
  simp [read, write, List.getElem?_set_ne hne.symm]

theorem read_write_of_ne (hne : b ≠ a) (hr : h.read b = some nd') : (h.write a nd).read b = some nd' := by
  rw [read_write_ne hne, hr]

theorem read_free_ne (hne : b ≠ a) : (h.free a).read b = h.read b := by
  simp [read, free, List.getElem?_set_ne hne.symm]

theorem read_alloc_self : (h.alloc nd).read h.length = some nd := by
  simp [read, alloc]

theorem read_alloc (hr : h.read a = some nd') : (h.alloc nd).read a = some nd' := by
  unfold read alloc
  rw [List.getElem?_append_left (lt_of_read hr)]
  exact hr

end Heap

/-! ### Chains -/

/-- The address by which a walk forward enters the cells, or leaves them at once. -/
def entry : List (ℕ × α) → Option ℕ → Option ℕ
  | [], next => next
  | (a, _) :: _, _ => some a

/-- The address by which a walk backward enters the cells, or leaves them at once. -/
def exit (prev : Option ℕ) : List (ℕ × α) → Option ℕ
  | [] => prev
  | (a, _) :: cells => exit (some a) cells

@[simp] theorem entry_nil (next : Option ℕ) : entry ([] : List (ℕ × α)) next = next := rfl

@[simp] theorem entry_cons (a : ℕ) (v : α) (cells : List (ℕ × α)) (next : Option ℕ) :
    entry ((a, v) :: cells) next = some a := rfl

@[simp] theorem entry_append (xs ys : List (ℕ × α)) (next : Option ℕ) :
    entry (xs ++ ys) next = entry xs (entry ys next) := by
  cases xs <;> rfl

@[simp] theorem exit_nil (prev : Option ℕ) : exit prev ([] : List (ℕ × α)) = prev := rfl

@[simp] theorem exit_cons (prev : Option ℕ) (a : ℕ) (v : α) (cells : List (ℕ × α)) :
    exit prev ((a, v) :: cells) = exit (some a) cells := rfl

@[simp] theorem exit_append (prev : Option ℕ) (xs ys : List (ℕ × α)) :
    exit prev (xs ++ ys) = exit (exit prev xs) ys := by
  induction xs generalizing prev with
  | nil => rfl
  | cons c xs ih => exact ih (some c.1)

theorem entry_eq_none {cells : List (ℕ × α)} : entry cells none = none ↔ cells = [] := by
  cases cells <;> simp [entry]

theorem exit_some_ne_none (a : ℕ) (cells : List (ℕ × α)) : exit (some a) cells ≠ none := by
  induction cells generalizing a with
  | nil => exact Option.some_ne_none a
  | cons c cells ih => exact ih c.1

theorem exit_eq_none {cells : List (ℕ × α)} : exit none cells = none ↔ cells = [] := by
  cases cells with
  | nil => simp
  | cons c cells => simp [exit, exit_some_ne_none]

theorem entry_mem {cells : List (ℕ × α)} {next : Option ℕ} {a : ℕ} (hne : cells ≠ [])
    (h : entry cells next = some a) : a ∈ cells.map Prod.fst := by
  cases cells with
  | nil => exact absurd rfl hne
  | cons c cells =>
    cases h
    exact List.mem_cons_self

theorem exit_mem {cells : List (ℕ × α)} {prev : Option ℕ} {a : ℕ} (hne : cells ≠ [])
    (h : exit prev cells = some a) : a ∈ cells.map Prod.fst := by
  rcases List.eq_nil_or_concat cells with rfl | ⟨xs, c, rfl⟩
  · exact absurd rfl hne
  · rw [List.concat_eq_append, exit_append] at h
    cases h
    simp

/-- The cells lie in the heap and are linked both ways, after `prev` and before `next`. -/
def Chain (h : Heap α) (prev : Option ℕ) : List (ℕ × α) → Option ℕ → Prop
  | [], _ => True
  | (a, v) :: cells, next => h.read a = some ⟨v, entry cells next, prev⟩ ∧ Chain h (some a) cells next

section Chain
variable {h h' : Heap α} {prev next prev' next' : Option ℕ} {xs ys cells : List (ℕ × α)} {a : ℕ} {v w : α}

theorem chain_append : Chain h prev (xs ++ ys) next ↔
    Chain h prev xs (entry ys next) ∧ Chain h (exit prev xs) ys next := by
  induction xs generalizing prev with
  | nil => exact ⟨fun h => ⟨trivial, h⟩, And.right⟩
  | cons c xs ih =>
    obtain ⟨a, v⟩ := c
    simp only [List.cons_append, Chain, entry_append, exit_cons, ih, and_assoc]

theorem Chain.read (hc : Chain h prev (xs ++ (a, v) :: ys) next) :
    h.read a = some ⟨v, entry ys next, exit prev xs⟩ := (chain_append.mp hc).2.1

/-- A chain only reads its own cells. -/
theorem Chain.frame (hc : Chain h prev cells next) (heq : ∀ c ∈ cells, h'.read c.1 = h.read c.1) :
    Chain h' prev cells next := by
  induction cells generalizing prev with
  | nil => trivial
  | cons c cells ih =>
    obtain ⟨a, v⟩ := c
    exact ⟨(heq (a, v) (by simp)).trans hc.1, ih hc.2 fun c hmem => heq c (by simp [hmem])⟩

theorem Chain.write (hc : Chain h prev cells next) {nd : Node α} (ha : a ∉ cells.map Prod.fst) :
    Chain (h.write a nd) prev cells next :=
  hc.frame fun _ hmem => Heap.read_write_ne fun heq => ha (heq ▸ List.mem_map_of_mem hmem)

theorem Chain.free (hc : Chain h prev cells next) (ha : a ∉ cells.map Prod.fst) :
    Chain (h.free a) prev cells next :=
  hc.frame fun _ hmem => Heap.read_free_ne fun heq => ha (heq ▸ List.mem_map_of_mem hmem)

theorem Chain.read_of_mem (hc : Chain h prev cells next) {c : ℕ × α} (hmem : c ∈ cells) :
    ∃ nd, h.read c.1 = some nd ∧ nd.value = c.2 := by
  obtain ⟨xs, ys, rfl⟩ := List.append_of_mem hmem
  exact ⟨_, hc.read, rfl⟩

theorem Chain.alloc (hc : Chain h prev cells next) (nd : Node α) : Chain (h.alloc nd) prev cells next :=
  hc.frame fun c hmem => by
    obtain ⟨nd', hr, -⟩ := hc.read_of_mem hmem
    rw [hr, Heap.read_alloc hr]

theorem Chain.set_prev (hc : Chain h prev ((a, v) :: ys) next) (hn : a ∉ ys.map Prod.fst) :
    Chain (h.write a ⟨v, entry ys next, prev'⟩) prev' ((a, v) :: ys) next :=
  ⟨Heap.read_write_self hc.1, hc.2.write hn⟩

theorem Chain.set_next (hc : Chain h prev (xs ++ [(a, v)]) next) (hn : a ∉ xs.map Prod.fst) :
    Chain (h.write a ⟨v, next', exit prev xs⟩) prev (xs ++ [(a, v)]) next' :=
  chain_append.mpr ⟨(chain_append.mp hc).1.write hn, Heap.read_write_self hc.read, trivial⟩

theorem Chain.set_value (hc : Chain h prev (xs ++ (a, v) :: ys) next)
    (hn : ((xs ++ (a, v) :: ys).map Prod.fst).Nodup) :
    Chain (h.write a ⟨w, entry ys next, exit prev xs⟩) prev (xs ++ (a, w) :: ys) next := by
  obtain ⟨hxs, hread, hys⟩ := chain_append.mp hc
  rw [List.map_append, List.map_cons, List.nodup_middle, List.nodup_cons, List.mem_append, not_or] at hn
  exact chain_append.mpr ⟨hxs.write hn.1.1, Heap.read_write_self hread, hys.write hn.1.2⟩

theorem Chain.length_le (hc : Chain h prev cells next) (hn : (cells.map Prod.fst).Nodup) :
    cells.length ≤ h.length := by
  have hsub : cells.map Prod.fst ⊆ List.range h.length := by
    intro a ha
    obtain ⟨c, hmem, rfl⟩ := List.mem_map.mp ha
    obtain ⟨nd, hr, -⟩ := hc.read_of_mem hmem
    exact List.mem_range.mpr (Heap.lt_of_read hr)
  simpa using (List.subperm_of_subset hn hsub).length_le

end Chain

/-- The nodes from `head` to `tail` are the cells, in this order. -/
structure IsList (h : Heap α) (head tail : Option ℕ) (cells : List (ℕ × α)) : Prop where
  chain : Chain h none cells none
  nodup : (cells.map Prod.fst).Nodup
  head : head = entry cells none
  tail : tail = exit none cells

end Linked
