import MemKey.Helper

/-! The hash table under `struct HashTable` (`htable.c`) and `struct Set` (`set.c`). The two files hold
    the same code twice, over items with a key and over strings that are their own keys; each function
    here is that code once, with the key of an entry as a parameter. -/

namespace MemKey
open Probing

/-- `struct HashTable` and `struct Set`: the array has `size` slots, and `used` is the counter that the
    code keeps of the occupied ones. -/
structure Table (α : Type) where
  size : ℕ
  used : Int
  slots : List (Slot α)
  deriving DecidableEq, Repr

namespace Table
variable {α : Type}

/-- The live entries in slot order, as every loop over the slots visits them. -/
def entries (t : Table α) : List α := Probing.entries t.slots

/-- `htable_init`, `set_init`. -/
def init (size : Int) : Table α :=
  let n := (nextPrime size).toNat
  { size := n, used := 0, slots := List.replicate n .null }

/-- `used * 100 / size`. -/
def load (m : IntMode) (t : Table α) : Int := (m.int (t.used * 100)).tdiv t.size

/-- The loop of a resize: the entries go into the new table one by one, whatever `add` replies. -/
def refill (add : Table α → α → Except Fault (Table α × Bool)) (t : Table α) : List α → Except Fault (Table α)
  | [] => .ok t
  | a :: as => do
    let (t', _) ← add t a
    refill add t' as

/-- `htable_resize`, `set_resize`: `size` and the array are those of the new table, `used` stays. -/
def resize (add : Table α → α → Except Fault (Table α × Bool)) (t : Table α) (newSize : Int) :
    Except Fault (Table α) :=
  if newSize < 2 then .ok t
  else do
    let new ← refill add (init newSize) t.entries
    .ok { t with size := new.size, slots := new.slots }

/-- `htable_resize_up`, `set_resize_up`. -/
def resizeUp (m : IntMode) (add : Table α → α → Except Fault (Table α × Bool)) (t : Table α) :
    Except Fault (Table α) :=
  if load m t > 70 then resize add t (m.int (t.size * 2)) else .ok t

/-- `htable_resize_down`, `set_resize_down`. -/
def resizeDown (m : IntMode) (add : Table α → α → Except Fault (Table α × Bool)) (t : Table α) :
    Except Fault (Table α) :=
  if load m t < 10 then resize add t (t.size / 2 : ℕ) else .ok t

/-- A new entry in slot `ix`. -/
def place (t : Table α) (ix : ℕ) (a : α) : Table α :=
  { t with slots := t.slots.set ix (.live a), used := t.used + 1 }

/-- A tombstone in slot `ix`. -/
def bury (t : Table α) (ix : ℕ) : Table α :=
  { t with slots := t.slots.set ix .deleted, used := t.used - 1 }

/-- Another entry in slot `ix`. -/
def put (t : Table α) (ix : ℕ) (a : α) : Table α := { t with slots := t.slots.set ix (.live a) }

/-- Where the probe loop of an insertion stops: at a free slot and, in `set_add` alone (`compare`), at an
    entry with the same key. -/
def addStop (key : α → Bytes) (compare : Bool) (a : α) : Slot α → Bool
  | .live b => compare && key b = key a
  | _ => true

/-- The probe loop of `htable_insert` and `set_add`. -/
def addWalk (m : IntMode) (key : α → Bytes) (compare : Bool) (t : Table α) (a : α) : Walk (ℕ × Slot α) :=
  walk (look (probePath m t.size (key a)) t.slots) (fun p => addStop key compare a p.2) 0 t.size

/-- `htable_insert`, `set_add`. An insertion can resize, and a resize inserts: the first argument bounds
    the depth of that recursion. The Boolean tells whether the entry was stored. -/
def add (m : IntMode) (key : α → Bytes) (compare : Bool) : ℕ → Table α → α → Except Fault (Table α × Bool)
  | 0, _, _ => .error .diverges
  | depth + 1, t, a =>
    match addWalk m key compare t a with
    | .outside => .error .outOfBounds
    | .miss | .hit (_, .live _) => .ok (t, false)
    | .hit (ix, _) => do
      let t' ← resizeUp m (add m key compare depth) (t.place ix a)
      .ok (t', true)

/-- The depth that every insertion gets: the insertions of a resize do not resize again. -/
def depth : ℕ := 2

/-- The probe loop of every function that looks a key up: the slot and the entry it stops at, if any. -/
def find (m : IntMode) (key : α → Bytes) (t : Table α) (k : Bytes) : Except Fault (Option (ℕ × α)) :=
  match seek key (probePath m t.size) t.size t.slots k with
  | .outside => .error .outOfBounds
  | .hit (ix, .live a) => .ok (some (ix, a))
  | _ => .ok none

/-- `htable_del`, `set_rem`. -/
def remove (m : IntMode) (key : α → Bytes) (compare : Bool) (t : Table α) (k : Bytes) :
    Except Fault (Table α × Bool) := do
  match ← find m key t k with
  | none => .ok (t, false)
  | some (ix, _) =>
    let t' ← resizeDown m (add m key compare depth) (t.bury ix)
    .ok (t', true)

end Table
end MemKey
