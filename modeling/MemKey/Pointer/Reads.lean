import MemKey.Pointer.Htable

/-! The functions of `list.c`, `set.c` and `htable.c` that only read, on the blocks of the memory. Some of them copy
    what they read: each copy is a string of its own, behind an array of pointers that ends with a NULL. -/

namespace MemKey.Pointer
open Probing

/-! ### Copies -/

/-- `calloc(n, sizeof(char *))`. -/
def callocCells (n : Int) : Prog ℕ := alloc (.array (List.replicate n.toNat .null))

/-- `res[ix] = x`, within the bounds of the array. -/
def setCell (res ix : ℕ) (x : Slot ℕ) : Prog Unit := do
  let cells ← load Block.asArray res
  if ix < cells.length then store res (.array (cells.set ix x)) else throw .outOfBounds

/-- `res[ix] = strdup(s)`. -/
def copyTo (res ix : ℕ) (s : Bytes) : Prog Unit := do
  let a ← strdup s
  setCell res ix (.live a)

/-- The loop of `set_members`, `htable_hgetall` and `htable_hkeyvals` over the slots from `i` on, `n` of them: `out`
    copies what an entry adds to the result, which has `id` strings, and the loop ends early once `full` says so. -/
def copyLoop (out : ℕ → ℕ → Prog ℕ) (full : ℕ → Prog Bool) (p i id : ℕ) : ℕ → Prog (ℕ × Bool)
  | 0 => pure (id, false)
  | n + 1 => do
    let t ← load Block.asTable p
    let slots ← load Block.asArray t.items
    match slots[i]? with
    | none => throw .outOfBounds
    | some slot => do
      let id ← match slot with
        | .live q => out q id
        | _ => pure id
      if ← full id then pure (id, true) else copyLoop out full p (i + 1) id n

/-- What `reply_array` reads of a result: the strings up to the NULL. -/
def stringsFrom (res i : ℕ) : ℕ → Prog (List Bytes)
  | 0 => throw .outOfBounds
  | n + 1 => do
    let cells ← load Block.asArray res
    match cells[i]? with
    | some (.live a) => do
      let s ← load Block.asChars a
      let rest ← stringsFrom res (i + 1) n
      pure (s :: rest)
    | some _ => pure []
    | none => throw .outOfBounds

/-! ### Lists -/

def listIndex (ls : ℕ) (id : Int) : Prog (Option ℕ) := do
  let l ← load Block.asList ls
  listSkip l.head id.toNat

/-- The loop of `list_pos`; the length of the list bounds its rounds. -/
def listPos.loop (value : Bytes) (cur : Option ℕ) (i : Int) : ℕ → Prog Int
  | 0 => throw .diverges
  | fuel + 1 =>
    match cur with
    | none => pure (-1)
    | some a => do
      let nd ← load Block.asNode a
      let s ← load Block.asChars nd.value
      if s = value then pure i else loop value nd.next (i + 1) fuel

def listPos (ls : ℕ) (value : Bytes) : Prog Int := do
  let l ← load Block.asList ls
  listPos.loop value l.head 0 (l.len.toNat + 1)

/-- `while (id < begin) cur = cur->next`, with `n` rounds left. -/
def listRange.skip (cur : Option ℕ) : ℕ → Prog (Option ℕ)
  | 0 => pure cur
  | n + 1 => do
    let a ← deref cur
    let nd ← load Block.asNode a
    skip nd.next n

/-- `while (id <= end) res[i++] = strdup(cur->value)`, with `n` rounds left. -/
def listRange.take (res i : ℕ) (cur : Option ℕ) : ℕ → Prog ℕ
  | 0 => pure i
  | n + 1 => do
    let a ← deref cur
    let nd ← load Block.asNode a
    let s ← load Block.asChars nd.value
    copyTo res i s
    take res (i + 1) nd.next n

def listRange (ls : ℕ) (begin_ end_ : Int) : Prog ℕ := do
  let l ← load Block.asList ls
  let res ← callocCells (end_ - begin_ + 2)
  let cur ← listRange.skip l.head begin_.toNat
  let i ← listRange.take res 0 cur (end_ + 1 - max begin_ 0).toNat
  setCell res i .null
  pure res

/-! ### Sets -/

def setIsmember (m : IntMode) (set : ℕ) (key : Bytes) : Prog Bool := do
  let s ← find members m set key
  pure s.isSome

/-- What `set_members` does with a member. -/
def copyMember (res q id : ℕ) : Prog ℕ := do
  let s ← load Block.asChars q
  copyTo res id s
  pure (id + 1)

def setMembers (set : ℕ) : Prog ℕ := do
  let t ← load Block.asTable set
  let res ← callocCells (t.size + 1)
  let _ ← copyLoop (copyMember res) (fun _ => pure false) set 0 0 t.size
  pure res

/-! ### Tables of items -/

def htableSearch (m : IntMode) (ht : ℕ) (key : Bytes) : Prog (Option ℕ) := do
  let s ← find items m ht key
  pure (s.map (·.2))

def htableType (m : IntMode) (ht : ℕ) (key : Bytes) : Prog ℕ := do
  match ← htableSearch m ht key with
  | none => strdup (str "none")
  | some q => do
    let it ← load Block.asItem q
    strdup (typeName it.type)

def htableGet (m : IntMode) (ht : ℕ) (key : Bytes) : Prog (Option ℕ) := do
  match ← htableSearch m ht key with
  | none => pure none
  | some q => do
    let it ← load Block.asItem q
    pure it.value

/-- The other reads: `act` works on the value of the item with the key. -/
def htableRead {ρ : Type} (m : IntMode) (ht : ℕ) (key : Bytes) (act : Option ℕ → Prog ρ) (missing : ρ) : Prog ρ := do
  match ← htableSearch m ht key with
  | none => pure missing
  | some q => do
    let it ← load Block.asItem q
    act it.value

def htableHget (m : IntMode) (ht : ℕ) (key field : Bytes) : Prog (Option ℕ) :=
  htableRead m ht key (fun v => do htableGet m (← deref v) field) none

def htableSismember (m : IntMode) (ht : ℕ) (key value : Bytes) : Prog Bool :=
  htableRead m ht key (fun v => do setIsmember m (← deref v) value) false

def htableHlen (m : IntMode) (ht : ℕ) (key : Bytes) : Prog Int :=
  htableRead m ht key (fun v =>
    match v with
    | none => pure 0
    | some v => do
      let t ← load Block.asTable v
      pure t.used) 0

def htableLlen (m : IntMode) (ht : ℕ) (key : Bytes) : Prog Int :=
  htableRead m ht key (fun v =>
    match v with
    | none => pure 0
    | some v => do
      let l ← load Block.asList v
      pure l.len) 0

def htableCheckId (m : IntMode) (ht : ℕ) (key : Bytes) (id : Int) : Prog (Int × Int) :=
  htableRead m ht key (fun v => do
    let l ← load Block.asList (← deref v)
    let id := normId l.len id
    pure (if id ≥ 0 ∧ id < l.len then 1 else 0, id)) (-1, id)

def htableCheckIds (m : IntMode) (ht : ℕ) (key : Bytes) (begin_ end_ : Int) : Prog (Int × Int × Int) :=
  htableRead m ht key (fun v => do
    let l ← load Block.asList (← deref v)
    let begin_ := normId l.len begin_
    let end_ := normId l.len end_
    pure (if begin_ ≤ end_ ∧ (begin_ ≥ 0 ∧ begin_ < l.len) ∧ (end_ ≥ 0 ∧ end_ < l.len) then 1 else 0,
      begin_, end_)) (-1, begin_, end_)

def htableLindex (m : IntMode) (ht : ℕ) (key : Bytes) (id : Int) : Prog (Option ℕ) :=
  htableRead m ht key (fun v => do
    match ← listIndex (← deref v) id with
    | none => pure none
    | some a => do
      let nd ← load Block.asNode a
      pure (some nd.value)) none

def htableLpos (m : IntMode) (ht : ℕ) (key value : Bytes) : Prog Int :=
  htableRead m ht key (fun v => do listPos (← deref v) value) (-1)

/-- What `htable_hgetall` and `htable_hkeyvals` do with a hash: `out` copies what they want of an item, and the result is
    complete with `count` of the counter. -/
def copyHash (out : ℕ → ℕ → ℕ → Prog ℕ) (count : Int → Int) (tmp : ℕ) : Prog (Option ℕ) := do
  let t ← load Block.asTable tmp
  let res ← callocCells (count t.used + 1)
  let full := fun (id : ℕ) => do
    let t ← load Block.asTable tmp
    pure (decide (id = count t.used))
  let r ← copyLoop (out res) full tmp 0 0 t.size
  if r.2 then
    setCell res r.1 .null
    pure (some res)
  else pure none

/-- `res[id++] = strdup(cur_item->key)`, and the same for the value. -/
def copyField (res q id : ℕ) : Prog ℕ := do
  let it ← load Block.asItem q
  let key ← load Block.asChars it.key
  copyTo res id key
  let it ← load Block.asItem q
  let v ← deref it.value
  let value ← load Block.asChars v
  copyTo res (id + 1) value
  pure (id + 2)

def htableHgetall (m : IntMode) (ht : ℕ) (key : Bytes) : Prog (Option ℕ) :=
  htableRead m ht key (fun v => do copyHash copyField (· * 2) (← deref v)) none

/-- `res[id++] = strdup(ky ? cur_item->key : cur_item->value)`. -/
def copyKeyval (ky : Int) (res q id : ℕ) : Prog ℕ := do
  let it ← load Block.asItem q
  let a ← if ky ≠ 0 then pure it.key else deref it.value
  let s ← load Block.asChars a
  copyTo res id s
  pure (id + 1)

def htableHkeyvals (m : IntMode) (ht : ℕ) (key : Bytes) (ky : Int) : Prog (Option ℕ) :=
  htableRead m ht key (fun v => do copyHash (copyKeyval ky) id (← deref v)) none

def htableLrange (m : IntMode) (ht : ℕ) (key : Bytes) (begin_ end_ : Int) : Prog (Option ℕ) := do
  let type ← htableType m ht key
  let name ← load Block.asChars type
  if isType name (str "list") then
    free (some type)
    let q ← deref (← htableSearch m ht key)
    let it ← load Block.asItem q
    let v ← deref it.value
    let res ← listRange v begin_ end_
    pure (some res)
  else pure none

def htableSmembers (m : IntMode) (ht : ℕ) (key : Bytes) : Prog (Option ℕ) :=
  htableRead m ht key (fun v => do
    let res ← setMembers (← deref v)
    pure (some res)) none

end MemKey.Pointer
