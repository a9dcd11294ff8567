import MemKey.Pointer.Block

/-! The tables of `htable.c` and `set.c` on the blocks of the memory. The two files hold the same code
    twice, over pointers to items and over pointers to strings; each function here is that code once, with
    what the files do to one entry as a parameter. -/

namespace MemKey.Pointer
open Probing

/-- What a file does to one entry, where `α` is what an insertion is given. -/
structure Kind (α : Type) where
  key : α → Bytes
  /-- `item_init(type, key, value)`, `strdup(key)`. -/
  init : α → Prog ℕ
  /-- `cur_item->key`, `cur_item`, as a string. -/
  keyAt : ℕ → Prog Bytes
  /-- What a resize inserts for the entry. -/
  read : ℕ → Prog α
  /-- `item->value = NULL`, after a resize has inserted the value elsewhere. -/
  moved : ℕ → Prog Unit
  /-- `item_free`, `free`. -/
  free : ℕ → Prog Unit

/-- `htable_init`, `set_init`. -/
def tableInit (size : Int) : Prog ℕ := do
  let n := (nextPrime size).toNat
  let items ← alloc (.array (List.replicate n .null))
  alloc (.table ⟨n, 0, items⟩)

/-- `ht->items[hash_func(key, ht->size, i)]`, with its index. -/
def slotAt (m : IntMode) (p : ℕ) (key : Bytes) (i : ℕ) : Prog (ℕ × Slot ℕ) := do
  let t ← load Block.asTable p
  let slots ← load Block.asArray t.items
  match look (probePath m t.size key) slots i with
  | some s => pure s
  | none => throw .outOfBounds

/-- `ht->items[ix] = x`. -/
def setSlot (p ix : ℕ) (x : Slot ℕ) : Prog Unit := do
  let t ← load Block.asTable p
  let slots ← load Block.asArray t.items
  store t.items (.array (slots.set ix x))

/-- `ht->used++` and `ht->used--`. -/
def setUsed (p : ℕ) (delta : Int) : Prog Unit := do
  let t ← load Block.asTable p
  store p (.table { t with used := t.used + delta })

/-- The loop of `htable_free` and `set_free` over the slots from `i` on, `n` of them. -/
def freeSlots (free : ℕ → Prog Unit) (p i : ℕ) : ℕ → Prog Unit
  | 0 => pure ()
  | n + 1 => do
    let t ← load Block.asTable p
    let slots ← load Block.asArray t.items
    match slots[i]? with
    | none => throw .outOfBounds
    | some (.live q) => do
      free q
      freeSlots free p (i + 1) n
    | some _ => freeSlots free p (i + 1) n

/-- `htable_free`, `set_free`. -/
def tableFree (freeEntry : ℕ → Prog Unit) : Option ℕ → Prog Unit
  | none => pure ()
  | some p => do
    let t ← load Block.asTable p
    freeSlots freeEntry p 0 t.size
    free (some t.items)
    free (some p)

section Table
variable {α : Type} (K : Kind α) (m : IntMode)

/-- The loop of `htable_insert` and `set_add` over the probes from `i` on, `n` of them: the index of the slot
    that the new entry gets. `set_add` alone compares the entries it passes with the new one. -/
def addLoop (compare : Bool) (p : ℕ) (a : α) (i : ℕ) : ℕ → Prog (Option ℕ)
  | 0 => pure none
  | n + 1 => do
    let s ← slotAt m p (K.key a) i
    match s.2 with
    | .live q =>
      if compare then do
        let k ← K.keyAt q
        if k = K.key a then pure none else addLoop compare p a (i + 1) n
      else addLoop compare p a (i + 1) n
    | _ => pure (some s.1)

/-- The loop of a resize over the slots of the old table from `i` on, `n` of them. -/
def refill (add : ℕ → α → Prog Bool) (p new i : ℕ) : ℕ → Prog Unit
  | 0 => pure ()
  | n + 1 => do
    let t ← load Block.asTable p
    let slots ← load Block.asArray t.items
    match slots[i]? with
    | none => throw .outOfBounds
    | some (.live q) => do
      let a ← K.read q
      let _ ← add new a
      K.moved q
      refill add p new (i + 1) n
    | some _ => refill add p new (i + 1) n

/-- `htable_resize`, `set_resize`. -/
def resize (add : ℕ → α → Prog Bool) (p : ℕ) (newSize : Int) : Prog Unit :=
  if newSize < 2 then pure ()
  else do
    let new ← tableInit newSize
    let t ← load Block.asTable p
    refill K add p new 0 t.size
    -- The sizes and the arrays of the two tables change places.
    let t ← load Block.asTable p
    let n ← load Block.asTable new
    store p (.table { t with size := n.size, items := n.items })
    store new (.table { n with size := t.size, items := t.items })
    tableFree K.free (some new)

/-- `htable_resize_up`, `set_resize_up`. -/
def resizeUp (add : ℕ → α → Prog Bool) (p : ℕ) : Prog Unit := do
  let t ← load Block.asTable p
  if (m.int (t.used * 100)).tdiv t.size > 70 then resize K add p (m.int (t.size * 2)) else pure ()

/-- `htable_resize_down`, `set_resize_down`. -/
def resizeDown (add : ℕ → α → Prog Bool) (p : ℕ) : Prog Unit := do
  let t ← load Block.asTable p
  if (m.int (t.used * 100)).tdiv t.size < 10 then resize K add p (t.size / 2 : ℕ) else pure ()

/-- `htable_insert`, `set_add`; the first argument bounds the depth of the recursion between insertions and
    resizes. -/
def add (compare : Bool) : ℕ → ℕ → α → Prog Bool
  | 0, _, _ => throw .diverges
  | depth + 1, p, a => do
    let t ← load Block.asTable p
    match ← addLoop K m compare p a 0 t.size with
    | none => pure false
    | some ix => do
      let q ← K.init a
      setSlot p ix (.live q)
      setUsed p 1
      resizeUp K m (add compare depth) p
      pure true

/-- The probe loop of every function that looks a key up, over the probes from `i` on, `n` of them: the index
    of the slot with the key and the pointer in it. -/
def findLoop (p : ℕ) (key : Bytes) (i : ℕ) : ℕ → Prog (Option (ℕ × ℕ))
  | 0 => pure none
  | n + 1 => do
    let s ← slotAt m p key i
    match s.2 with
    | .null => pure none
    | .deleted => findLoop p key (i + 1) n
    | .live q => do
      let k ← K.keyAt q
      if k = key then pure (some (s.1, q)) else findLoop p key (i + 1) n

def find (p : ℕ) (key : Bytes) : Prog (Option (ℕ × ℕ)) := do
  let t ← load Block.asTable p
  findLoop K m p key 0 t.size

/-- `htable_del`, `set_rem`. -/
def remove (compare : Bool) (p : ℕ) (key : Bytes) : Prog Bool := do
  match ← find K m p key with
  | none => pure false
  | some s => do
    K.free s.2
    setSlot p s.1 .deleted
    setUsed p (-1)
    resizeDown K m (add K m compare Table.depth) p
    pure true

end Table

/-! ### Sets -/

/-- The members of a set are strings. -/
def members : Kind Bytes where
  key := id
  init := strdup
  keyAt := load Block.asChars
  read := load Block.asChars
  moved := fun _ => pure ()
  free := fun q => free (some q)

def setInit (size : Int) : Prog ℕ := tableInit size

def setFree : Option ℕ → Prog Unit := tableFree members.free

def setAdd (m : IntMode) (set : ℕ) (key : Bytes) : Prog Bool := add members m true Table.depth set key

def setRem (m : IntMode) (set : ℕ) (key : Bytes) : Prog Bool := remove members m true set key

end MemKey.Pointer
