import Mathlib.Algebra.Order.Group.Multiset
import Mathlib.Tactic.Abel
import MemKey.Lib.Outcome

/-! Programs over a memory of blocks, and what they do to the blocks they own. The blocks of a memory
    are a multiset of addresses with contents, so that two parts of a memory that add up to it share no
    block. `Does c m Q` is total correctness with the frame in it: whatever else the memory holds, `c`
    returns from the blocks `m`, touches no other block, and leaves blocks that satisfy `Q`. -/

/-- The blocks by address; a freed block is `none`. -/
abbrev Memory (β : Type) := List (Option β)

namespace Memory

/-- A program over a memory, which may fail. -/
abbrev Prog (β ε α : Type) := StateT (Memory β) (Except ε) α

variable {α β γ ε : Type}

def read (M : Memory β) (a : ℕ) : Option β := M[a]?.join

/-- Blocks with their addresses. -/
abbrev Owned (β : Type) := Multiset (ℕ × β)

/-- One block. -/
def own (a : ℕ) (b : β) : Owned β := {(a, b)}

section Focus
variable (a b c d e f : Owned β)

/-- The third part of a sum comes first. -/
theorem front₃ : a + (b + (c + d)) = c + (a + (b + d)) := by rw [add_left_comm b c, add_left_comm a c]

theorem front₄ : a + (b + (c + (d + e))) = d + (a + (b + (c + e))) := by rw [front₃ b c d, add_left_comm a d]

theorem front₅ : a + (b + (c + (d + (e + f)))) = e + (a + (b + (c + (d + f)))) := by
  rw [front₄ b c d e, add_left_comm a e]

end Focus

/-- The blocks of a memory whose first address is `i`. -/
def liveFrom (i : ℕ) : Memory β → Owned β
  | [] => 0
  | none :: M => liveFrom (i + 1) M
  | some b :: M => own i b + liveFrom (i + 1) M

/-- All blocks of a memory. -/
def live (M : Memory β) : Owned β := liveFrom 0 M

theorem liveFrom_append (i : ℕ) (M N : Memory β) : liveFrom i (M ++ N) = liveFrom i M + liveFrom (i + M.length) N := by
  induction M generalizing i with
  | nil => simp [liveFrom]
  | cons b M ih =>
    have hi : i + 1 + M.length = i + (b :: M).length := by rw [List.length_cons]; omega
    cases b with
    | none => rw [List.cons_append, liveFrom, ih, hi, liveFrom]
    | some b => rw [List.cons_append, liveFrom, ih, hi, liveFrom, add_assoc]

theorem live_alloc (M : Memory β) (b : β) : live (M ++ [some b]) = own M.length b + live M := by
  rw [live, liveFrom_append, live, Nat.zero_add, add_comm]
  rfl

theorem read_of_mem {M : Memory β} {a : ℕ} {b : β} {i : ℕ} (h : (a, b) ∈ liveFrom i M) :
    i ≤ a ∧ M.read (a - i) = some b := by
  induction M generalizing i with
  | nil => simp [liveFrom] at h
  | cons c M ih =>
    have tail : (a, b) ∈ liveFrom (i + 1) M → i ≤ a ∧ read (c :: M) (a - i) = some b := fun h => by
      obtain ⟨hle, hr⟩ := ih h
      refine ⟨by omega, ?_⟩
      rw [show a - i = a - (i + 1) + 1 by omega]
      exact hr
    cases c with
    | none => exact tail h
    | some c =>
      rcases Multiset.mem_add.mp h with h | h
      · cases Multiset.mem_singleton.mp h
        simp [read]
      · exact tail h

theorem read_own {M : Memory β} {a : ℕ} {b : β} {m f : Owned β} (h : live M = own a b + m + f) :
    M.read a = some b := by
  have hmem : (a, b) ∈ liveFrom 0 M := by
    rw [← live, h]
    simp [own]
  exact (read_of_mem hmem).2

/-- Changing one block changes that block alone. -/
theorem live_set {M : Memory β} {a : ℕ} {b : β} (h : M.read a = some b) :
    ∃ f, live M = own a b + f ∧ live (M.set a none) = f ∧ ∀ b', live (M.set a (some b')) = own a b' + f := by
  have hlt : a < M.length := by
    by_contra hge
    simp [read, List.getElem?_eq_none (Nat.le_of_not_lt hge)] at h
  have hb : M[a] = some b := by simpa [read, hlt] using h
  have hlen : (M.take a).length = a := by simp [Nat.le_of_lt hlt]
  -- The memory is the blocks before `a`, block `a`, and the blocks after it.
  have split : ∀ c, live (M.set a c) = liveFrom 0 (M.take a) + liveFrom a (c :: M.drop (a + 1)) := fun c => by
    rw [List.set_eq_take_append_cons_drop, if_pos hlt, live, liveFrom_append, hlen, Nat.zero_add]
  have hself : M.set a (some b) = M := by rw [← hb, List.set_getElem_self]
  have full : ∀ b', live (M.set a (some b')) =
      own a b' + (liveFrom 0 (M.take a) + liveFrom (a + 1) (M.drop (a + 1))) := fun b' => by
    rw [split, liveFrom, add_left_comm]
  exact ⟨_, (congrArg live hself).symm.trans (full b), split none, full⟩

/-! ### Programs -/

/-- A new block lies at an address that no block had before. -/
def alloc (b : β) : Prog β ε ℕ := fun M => .ok (M.length, M ++ [some b])

section Access
variable (dangling wrong : ε)

def load (a : ℕ) : Prog β ε β := fun M =>
  match M.read a with
  | some b => .ok (b, M)
  | none => .error dangling

/-- A load of a block that has to be of one kind. -/
def loadAs (view : β → Option γ) (a : ℕ) : Prog β ε γ := do
  match view (← load dangling a) with
  | some x => pure x
  | none => throw wrong

def store (a : ℕ) (b : β) : Prog β ε Unit := fun M =>
  match M.read a with
  | some _ => .ok ((), M.set a (some b))
  | none => .error dangling

def release (a : ℕ) : Prog β ε Unit := fun M =>
  match M.read a with
  | some _ => .ok ((), M.set a none)
  | none => .error dangling

end Access

/-! ### What programs do -/

/-- From the blocks `m`, whatever else there is, the program returns, touches nothing else, and leaves
    blocks that satisfy `Q`. -/
def Does (c : Prog β ε α) (m : Owned β) (Q : α → Owned β → Prop) : Prop :=
  ∀ (M : Memory β) (f : Owned β), live M = m + f →
    ∃ r M' m', c M = .ok (r, M') ∧ live M' = m' + f ∧ Q r m'

section Rules
variable {m m' n f : Owned β} {Q : α → Owned β → Prop} {R : γ → Owned β → Prop} {c : Prog β ε α} {k : α → Prog β ε γ}
  {dangling wrong : ε} {a : ℕ} {b b' : β}

theorem Does.pure {x : α} (h : Q x m) : Does (Pure.pure x : Prog β ε α) m Q :=
  fun M _ hM => ⟨x, M, m, rfl, hM, h⟩

theorem Does.seq (h : Does c m fun x m' => Does (k x) m' R) : Does (c >>= k) m R := by
  intro M f hM
  obtain ⟨x, M', m', hc, hM', hk⟩ := h M f hM
  obtain ⟨r, M'', m'', hr, hM'', hR⟩ := hk M' f hM'
  exact ⟨r, M'', m'', by rw [← hr]; exact congrArg (· >>= fun p => k p.1 p.2) hc, hM'', hR⟩

theorem Does.mono {Q' : α → Owned β → Prop} (h : Does c m Q) (hQ : ∀ x m', Q x m' → Q' x m') : Does c m Q' := by
  intro M f hM
  obtain ⟨x, M', m', hc, hM', hq⟩ := h M f hM
  exact ⟨x, M', m', hc, hM', hQ x m' hq⟩

/-- The frame rule, at a call that owns a part of the blocks. -/
theorem Does.call {Q' : α → Owned β → Prop} (h : Does c n Q) (hm : m = n + f) (hQ : ∀ x n', Q x n' → Q' x (n' + f)) :
    Does c m Q' := by
  intro M g hM
  obtain ⟨x, M', n', hc, hM', hq⟩ := h M (f + g) (by rw [hM, hm, add_assoc])
  exact ⟨x, M', n' + f, hc, by rw [hM', add_assoc], hQ x n' hq⟩

/-- No two blocks lie at one address. -/
theorem Does.apart (hm : m = own a b + n) (h : (∀ b', (a, b') ∉ n) → Does c m Q) : Does c m Q := by
  intro M f hM
  refine h (fun b' hmem => ?_) M f hM
  obtain ⟨n', rfl⟩ := Multiset.exists_cons_of_mem hmem
  rw [hm] at hM
  obtain ⟨g, hg, hset, -⟩ := live_set (read_own hM)
  have hgn : g = own a b' + n' + f := by
    refine add_left_cancel (a := own a b) ?_
    rw [← hg, hM, ← Multiset.singleton_add, add_assoc]
    rfl
  -- The second block would survive the end of the first.
  have hr := read_own (hset.trans hgn)
  by_cases hlt : a < M.length
  · simp [read, List.getElem?_set_self hlt] at hr
  · simp [read, List.getElem?_eq_none (l := M.set a none) (i := a) (by simpa using hlt)] at hr

theorem Does.alloc {Q : ℕ → Owned β → Prop} (h : ∀ a, Q a (own a b + m)) :
    Does (Memory.alloc b : Prog β ε ℕ) m Q :=
  fun M f hM => ⟨M.length, M ++ [some b], own M.length b + m, rfl, by rw [live_alloc, hM, add_assoc], h M.length⟩

theorem Does.load {Q : β → Owned β → Prop} (hm : m = own a b + n) (h : Q b m) :
    Does (Memory.load dangling a) m Q :=
  fun M _ hM => ⟨b, M, m, by rw [Memory.load, read_own (hm ▸ hM)], hM, h⟩

theorem Does.loadAs {view : β → Option α} {x : α} (hm : m = own a b + n) (hx : view b = some x) (h : Q x m) :
    Does (Memory.loadAs dangling wrong view a) m Q := by
  refine .seq (.load hm ?_)
  rw [hx]
  exact .pure h

theorem Does.store {Q : Unit → Owned β → Prop} (hm : m = own a b + n) (h : Q () (own a b' + n)) :
    Does (Memory.store dangling a b') m Q := by
  intro M f hM
  have hr := read_own (hm ▸ hM)
  obtain ⟨g, hg, -, hset⟩ := live_set hr
  have hfg : g = n + f := add_left_cancel (a := own a b) (by rw [← hg, hM, hm, add_assoc])
  exact ⟨(), M.set a (some b'), own a b' + n, by rw [Memory.store, hr], by rw [hset, hfg, add_assoc], h⟩

theorem Does.release {Q : Unit → Owned β → Prop} (hm : m = own a b + n) (h : Q () n) :
    Does (Memory.release dangling a) m Q := by
  intro M f hM
  have hr := read_own (hm ▸ hM)
  obtain ⟨g, hg, hset, -⟩ := live_set hr
  have hfg : g = n + f := add_left_cancel (a := own a b) (by rw [← hg, hM, hm, add_assoc])
  exact ⟨(), M.set a none, n, by rw [Memory.release, hr], by rw [hset, hfg], h⟩

end Rules

end Memory
