import MemKey.Pointer.List
import MemKey.Pointer.Table

/-! `htable.c` on the blocks of the memory: the functions that make, change and free tables of items. -/

namespace MemKey.Pointer

/-! ### Items -/

def itemInit (type : ItemType) (key : Bytes) (value : Option ℕ) : Prog ℕ := do
  let k ← strdup key
  alloc (.item ⟨type, k, value⟩)

/-- The switch of `item_free`. -/
def valueFree (itemFree : ℕ → Prog Unit) (value : Option ℕ) : ItemType → Prog Unit
  | .STR_T => free value
  | .HASH_T => tableFree itemFree value
  | .LIST_T => listFree value
  | .SET_T => setFree value

/-- `item_free`, where the first argument bounds how deep tables lie in tables. -/
def itemFree : ℕ → ℕ → Prog Unit
  | 0, _ => throw .diverges
  | depth + 1, q => do
    let it ← load Block.asItem q
    valueFree (itemFree depth) it.value it.type
    free (some it.key)
    free (some q)

/-- The depth that every end of an item gets: the items of a hash are strings. -/
def nesting : ℕ := 2

/-- The entries of a `HashTable` are items. -/
def items : Kind (HashTableItem (Option ℕ)) where
  key := HashTableItem.key
  init := fun a => itemInit a.type a.key a.value
  keyAt := fun q => do
    let it ← load Block.asItem q
    load Block.asChars it.key
  read := fun q => do
    let it ← load Block.asItem q
    let key ← load Block.asChars it.key
    pure ⟨it.type, key, it.value⟩
  moved := fun q => do
    let it ← load Block.asItem q
    store q (.item { it with value := none })
  free := itemFree nesting

def htableInit (size : Int) : Prog ℕ := tableInit size

def htableFree : Option ℕ → Prog Unit := tableFree (itemFree nesting)

def htableInsert (m : IntMode) (ht : ℕ) (type : ItemType) (key : Bytes) (value : Option ℕ) : Prog Unit := do
  let _ ← add items m false Table.depth ht ⟨type, key, value⟩
  pure ()

def htableExists (m : IntMode) (ht : ℕ) (key : Bytes) : Prog Bool := do
  let s ← find items m ht key
  pure s.isSome

def htableDel (m : IntMode) (ht : ℕ) (key : Bytes) : Prog Bool := remove items m false ht key

/-! ### Writes -/

def htableUpdateStr (m : IntMode) (ht : ℕ) (key : Bytes) (value : Option ℕ) : Prog Unit := do
  match ← find items m ht key with
  | none => pure ()
  | some s => do
    itemFree nesting s.2
    let q ← itemInit .STR_T key value
    setSlot ht s.1 (.live q)

def htableSet (m : IntMode) (ht : ℕ) (key value : Bytes) : Prog Bool := do
  let dup ← strdup value
  if ← htableExists m ht key then
    htableUpdateStr m ht key (some dup)
    pure false
  else
    htableInsert m ht .STR_T key (some dup)
    pure true

/-- The probe loops of `htable_update_hash`, `htable_update_list` and `htable_update_set`: `act` works on
    the value of the item with the key, and `missing` is the reply when there is none. -/
def htableUpdate {ρ : Type} (m : IntMode) (ht : ℕ) (key : Bytes) (act : ℕ → Prog ρ) (missing : ρ) : Prog ρ := do
  match ← find items m ht key with
  | none => pure missing
  | some s => do
    let it ← load Block.asItem s.2
    let v ← deref it.value
    act v

/-- What `htable_update_list` does with the value. -/
def pushValue (value : Bytes) (dir : ListDirection) (ls : ℕ) : Prog Int := do
  listPush ls value dir
  let l ← load Block.asList ls
  pure l.len

def htableHset (m : IntMode) (ht : ℕ) (key field value : Bytes) : Prog Bool := do
  if ← htableExists m ht key then htableUpdate m ht key (fun v => htableSet m v field value) false
  else
    let new ← htableInit htBaseSize
    let _ ← htableSet m new field value
    htableInsert m ht .HASH_T key (some new)
    pure true

def htablePush (m : IntMode) (ht : ℕ) (key value : Bytes) (dir : ListDirection) : Prog Int := do
  if ← htableExists m ht key then htableUpdate m ht key (pushValue value dir) 0
  else
    let new ← listInit
    listPush new value dir
    htableInsert m ht .LIST_T key (some new)
    pure 1

def htableSadd (m : IntMode) (ht : ℕ) (key value : Bytes) : Prog Bool := do
  if ← htableExists m ht key then htableUpdate m ht key (fun v => setAdd m v value) false
  else
    let new ← setInit htBaseSize
    let _ ← setAdd m new value
    htableInsert m ht .SET_T key (some new)
    pure true

/-- What `htable_pop`, `htable_hdel`, `htable_lrem` and `htable_srem` do with the item they find: `act`
    works on its value, and the key is deleted if the value is then empty. -/
def htableShrink {ρ : Type} (m : IntMode) (ht : ℕ) (key : Bytes) (act : ℕ → Prog (Bool × ρ)) (missing : ρ) : Prog ρ := do
  match ← find items m ht key with
  | none => pure missing
  | some s => do
    let it ← load Block.asItem s.2
    let v ← deref it.value
    let r ← act v
    if r.1 then
      let _ ← htableDel m ht key
      pure r.2
    else pure r.2

/-- What `htable_pop` does with the value: the popped node is not freed. -/
def popValue (dir : ListDirection) (ls : ℕ) : Prog (Bool × Option ℕ) := do
  let nd ← listPop ls dir
  let a ← deref nd
  let nd ← load Block.asNode a
  let l ← load Block.asList ls
  pure (l.len = 0, some nd.value)

def htablePop (m : IntMode) (ht : ℕ) (key : Bytes) (dir : ListDirection) : Prog (Option ℕ) :=
  htableShrink m ht key (popValue dir) none

/-- What `htable_hdel` does with the value. -/
def hdelValue (m : IntMode) (field : Bytes) (tmp : ℕ) : Prog (Bool × Bool) := do
  let res ← htableDel m tmp field
  let t ← load Block.asTable tmp
  pure (t.used = 0, res)

def htableHdel (m : IntMode) (ht : ℕ) (key field : Bytes) : Prog Bool :=
  htableShrink m ht key (hdelValue m field) false

/-- What `htable_lrem` does with the value. -/
def lremValue (count : Int) (value : Bytes) (ls : ℕ) : Prog (Bool × Int) := do
  let res ← listRem ls count value
  let l ← load Block.asList ls
  pure (l.len = 0, res)

def htableLrem (m : IntMode) (ht : ℕ) (key : Bytes) (count : Int) (value : Bytes) : Prog Int :=
  htableShrink m ht key (lremValue count value) 0

/-- What `htable_srem` does with the value. -/
def sremValue (m : IntMode) (value : Bytes) (st : ℕ) : Prog (Bool × Bool) := do
  let res ← setRem m st value
  let t ← load Block.asTable st
  pure (t.used = 0, res)

def htableSrem (m : IntMode) (ht : ℕ) (key value : Bytes) : Prog Bool :=
  htableShrink m ht key (sremValue m value) false

def htableLset (m : IntMode) (ht : ℕ) (key : Bytes) (id : Int) (value : Bytes) : Prog Bool :=
  htableUpdate m ht key (fun ls => listSet ls id value) false

end MemKey.Pointer
