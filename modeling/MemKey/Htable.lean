import MemKey.Set
import MemKey.List

/-! `htable.c`: the keyspace, a table of tagged items whose values are strings, hashes (tables again),
    lists and sets. The value behind the `void *` of an item is a `Value`; a function that casts it to
    another type than the one it has runs into `wrongType`. -/

namespace MemKey

/-- The tag of an item. -/
inductive ItemType where
  | STR_T
  | HASH_T
  | LIST_T
  | SET_T
  deriving DecidableEq, Repr

/-- `struct HashTableItem`, over the type of the values. -/
structure HashTableItem (V : Type) where
  type : ItemType
  key : Bytes
  value : V
  deriving DecidableEq, Repr

/-- `struct HashTable`. -/
abbrev HashTable (V : Type) := Table (HashTableItem V)

/-- What the `void *` of an item points at. -/
inductive Value where
  | str (s : Bytes)
  | hash (ht : Table (HashTableItem Value))
  | list (ls : CList)
  | set (st : CSet)

namespace Value

/-- `(char *)value`, to be read. -/
def asStr : Value → Except Fault Bytes
  | str s => .ok s
  | _ => .error .wrongType

/-- `(HashTable *)value`. -/
def asHash : Value → Except Fault (HashTable Value)
  | hash ht => .ok ht
  | _ => .error .wrongType

/-- `(List *)value`. -/
def asList : Value → Except Fault CList
  | list ls => .ok ls
  | _ => .error .wrongType

/-- `(Set *)value`. -/
def asSet : Value → Except Fault CSet
  | set st => .ok st
  | _ => .error .wrongType

end Value

def htBaseSize : Int := 2

/-! ### The table -/

section Table
variable {V : Type}

def htableInit (size : Int) : HashTable V := Table.init size

def htableInsert (m : IntMode) (ht : HashTable V) (type : ItemType) (key : Bytes) (value : V) :
    Except Fault (HashTable V) := do
  let (ht', _) ← Table.add m HashTableItem.key false Table.depth ht ⟨type, key, value⟩
  .ok ht'

/-- The pointer that `htable_search` returns, as the slot it came from and the item itself. -/
def htableFind (m : IntMode) (ht : HashTable V) (key : Bytes) : Except Fault (Option (ℕ × HashTableItem V)) :=
  Table.find m HashTableItem.key ht key

def htableSearch (m : IntMode) (ht : HashTable V) (key : Bytes) : Except Fault (Option (HashTableItem V)) := do
  .ok ((← htableFind m ht key).map (·.2))

def htableExists (m : IntMode) (ht : HashTable V) (key : Bytes) : Except Fault Bool := do
  .ok (← htableSearch m ht key).isSome

def typeName : ItemType → Bytes
  | .STR_T => str "string"
  | .HASH_T => str "hash"
  | .LIST_T => str "list"
  | .SET_T => str "set"

def htableType (m : IntMode) (ht : HashTable V) (key : Bytes) : Except Fault Bytes := do
  match ← htableSearch m ht key with
  | none => .ok (str "none")
  | some item => .ok (typeName item.type)

def htableDel (m : IntMode) (ht : HashTable V) (key : Bytes) : Except Fault (HashTable V × Bool) :=
  Table.remove m HashTableItem.key false ht key

end Table

def isType (given expected : Bytes) : Bool := given = expected || given = str "none"

/-! ### Writes -/

def htableUpdateStr (m : IntMode) (ht : HashTable Value) (key value : Bytes) :
    Except Fault (HashTable Value) := do
  match ← htableFind m ht key with
  | none => .ok ht
  | some (ix, _) => .ok (ht.put ix ⟨.STR_T, key, .str value⟩)

def htableSet (m : IntMode) (ht : HashTable Value) (key value : Bytes) :
    Except Fault (HashTable Value × Bool) := do
  if ← htableExists m ht key then
    .ok (← htableUpdateStr m ht key value, false)
  else
    .ok (← htableInsert m ht .STR_T key (.str value), true)

/-- The probe loops of `htable_update_hash`, `htable_update_list` and `htable_update_set`: `act` works on
    the value of the item with the key, and `missing` is the reply when there is none. -/
def htableUpdate {ρ : Type} (m : IntMode) (ht : HashTable Value) (key : Bytes)
    (act : Value → Except Fault (Value × ρ)) (missing : ρ) : Except Fault (HashTable Value × ρ) := do
  match ← htableFind m ht key with
  | none => .ok (ht, missing)
  | some (ix, item) =>
    let (value, reply) ← act item.value
    .ok (ht.put ix { item with value }, reply)

def htableUpdateHash (m : IntMode) (ht : HashTable Value) (key field value : Bytes) :
    Except Fault (HashTable Value × Bool) :=
  htableUpdate m ht key (fun v => do
    let tmp ← v.asHash
    let (tmp, new) ← htableSet m tmp field value
    .ok (.hash tmp, new)) false

def listPush (ls : CList) (value : Bytes) : ListDirection → Except Fault CList
  | .LEFT => listLpush ls value
  | .RIGHT => listRpush ls value

def htableUpdateList (m : IntMode) (ht : HashTable Value) (key value : Bytes) (dir : ListDirection) :
    Except Fault (HashTable Value × Int) :=
  htableUpdate m ht key (fun v => do
    let tmp ← listPush (← v.asList) value dir
    .ok (.list tmp, tmp.len)) 0

def htableUpdateSet (m : IntMode) (ht : HashTable Value) (key value : Bytes) :
    Except Fault (HashTable Value × Bool) :=
  htableUpdate m ht key (fun v => do
    let (tmp, new) ← setAdd m (← v.asSet) value
    .ok (.set tmp, new)) false

def htableHset (m : IntMode) (ht : HashTable Value) (key field value : Bytes) :
    Except Fault (HashTable Value × Bool) := do
  if ← htableExists m ht key then htableUpdateHash m ht key field value
  else
    let (new, _) ← htableSet m (htableInit htBaseSize) field value
    .ok (← htableInsert m ht .HASH_T key (.hash new), true)

def htablePush (m : IntMode) (ht : HashTable Value) (key value : Bytes) (dir : ListDirection) :
    Except Fault (HashTable Value × Int) := do
  if ← htableExists m ht key then htableUpdateList m ht key value dir
  else
    let new ← listPush listInit value dir
    .ok (← htableInsert m ht .LIST_T key (.list new), 1)

def htableSadd (m : IntMode) (ht : HashTable Value) (key value : Bytes) :
    Except Fault (HashTable Value × Bool) := do
  if ← htableExists m ht key then htableUpdateSet m ht key value
  else
    let (new, _) ← setAdd m (setInit htBaseSize) value
    .ok (← htableInsert m ht .SET_T key (.set new), true)

/-- What `htable_pop`, `htable_hdel`, `htable_lrem` and `htable_srem` do with the item they find: `act`
    works on its value, and the key is deleted if the value is then empty. -/
def htableShrink {ρ : Type} (m : IntMode) (ht : HashTable Value) (key : Bytes)
    (act : Value → Except Fault (Value × Bool × ρ)) (missing : ρ) : Except Fault (HashTable Value × ρ) := do
  match ← htableFind m ht key with
  | none => .ok (ht, missing)
  | some (ix, item) =>
    let (value, empty, reply) ← act item.value
    let ht := ht.put ix { item with value }
    if empty then
      let (ht, _) ← htableDel m ht key
      .ok (ht, reply)
    else .ok (ht, reply)

def listPop (ls : CList) : ListDirection → Except Fault (CList × Option ℕ)
  | .LEFT => listLpop ls
  | .RIGHT => listRpop ls

/-- What `htable_pop` does with the value. -/
def popValue (dir : ListDirection) (v : Value) : Except Fault (Value × Bool × Option Bytes) := do
  let (tmp, nd) ← listPop (← v.asList) dir
  let (_, nd) ← deref tmp.nodes nd
  .ok (.list tmp, tmp.len = 0, some nd.value)

def htablePop (m : IntMode) (ht : HashTable Value) (key : Bytes) (dir : ListDirection) :
    Except Fault (HashTable Value × Option Bytes) :=
  htableShrink m ht key (popValue dir) none

/-- What `htable_hdel` does with the value. -/
def hdelValue (m : IntMode) (field : Bytes) (v : Value) : Except Fault (Value × Bool × Bool) := do
  let (tmp, res) ← htableDel m (← v.asHash) field
  .ok (.hash tmp, tmp.used = 0, res)

def htableHdel (m : IntMode) (ht : HashTable Value) (key field : Bytes) :
    Except Fault (HashTable Value × Bool) :=
  htableShrink m ht key (hdelValue m field) false

/-- What `htable_lrem` does with the value. -/
def lremValue (count : Int) (value : Bytes) (v : Value) : Except Fault (Value × Bool × Int) := do
  let (tmp, res) ← listRem (← v.asList) count value
  .ok (.list tmp, tmp.len = 0, res)

def htableLrem (m : IntMode) (ht : HashTable Value) (key : Bytes) (count : Int) (value : Bytes) :
    Except Fault (HashTable Value × Int) :=
  htableShrink m ht key (lremValue count value) 0

/-- What `htable_srem` does with the value. -/
def sremValue (m : IntMode) (value : Bytes) (v : Value) : Except Fault (Value × Bool × Bool) := do
  let (tmp, res) ← setRem m (← v.asSet) value
  .ok (.set tmp, tmp.used = 0, res)

def htableSrem (m : IntMode) (ht : HashTable Value) (key value : Bytes) :
    Except Fault (HashTable Value × Bool) :=
  htableShrink m ht key (sremValue m value) false

def htableLset (m : IntMode) (ht : HashTable Value) (key : Bytes) (id : Int) (value : Bytes) :
    Except Fault (HashTable Value × Bool) :=
  htableUpdate m ht key (fun v => do
    let (tmp, res) ← listSet (← v.asList) id value
    .ok (.list tmp, res)) false

/-! ### Reads -/

/-- The reads: `act` works on the value of the item with the key. -/
def htableRead {ρ : Type} (m : IntMode) (ht : HashTable Value) (key : Bytes) (act : Value → Except Fault ρ)
    (missing : ρ) : Except Fault ρ := do
  match ← htableSearch m ht key with
  | none => .ok missing
  | some item => act item.value

/-- The cast counts as the read: the callers that take any key (`exec_mget`) read every string they get. -/
def htableGet (m : IntMode) (ht : HashTable Value) (key : Bytes) : Except Fault (Option Bytes) :=
  htableRead m ht key (fun v => do .ok (some (← v.asStr))) none

def htableHget (m : IntMode) (ht : HashTable Value) (key field : Bytes) : Except Fault (Option Bytes) :=
  htableRead m ht key (fun v => do htableGet m (← v.asHash) field) none

def htableSismember (m : IntMode) (ht : HashTable Value) (key value : Bytes) : Except Fault Bool :=
  htableRead m ht key (fun v => do setIsmember m (← v.asSet) value) false

def htableHlen (m : IntMode) (ht : HashTable Value) (key : Bytes) : Except Fault Int :=
  htableRead m ht key (fun v => do .ok (← v.asHash).used) 0

def htableLlen (m : IntMode) (ht : HashTable Value) (key : Bytes) : Except Fault Int :=
  htableRead m ht key (fun v => do .ok (← v.asList).len) 0

/-- An index counted from the end when negative. -/
def normId (len id : Int) : Int := if id < 0 then len + id else id

/-- The code and the rewritten index. -/
def htableCheckId (m : IntMode) (ht : HashTable Value) (key : Bytes) (id : Int) : Except Fault (Int × Int) :=
  htableRead m ht key (fun v => do
    let ls ← v.asList
    let id := normId ls.len id
    .ok (if id ≥ 0 ∧ id < ls.len then 1 else 0, id)) (-1, id)

def htableCheckIds (m : IntMode) (ht : HashTable Value) (key : Bytes) (begin_ end_ : Int) :
    Except Fault (Int × Int × Int) :=
  htableRead m ht key (fun v => do
    let ls ← v.asList
    let begin_ := normId ls.len begin_
    let end_ := normId ls.len end_
    .ok (if begin_ ≤ end_ ∧ (begin_ ≥ 0 ∧ begin_ < ls.len) ∧ (end_ ≥ 0 ∧ end_ < ls.len) then 1 else 0,
      begin_, end_)) (-1, begin_, end_)

def htableLindex (m : IntMode) (ht : HashTable Value) (key : Bytes) (id : Int) :
    Except Fault (Option Bytes) :=
  htableRead m ht key (fun v => do
    let ls ← v.asList
    match ← listIndex ls id with
    | none => .ok none
    | some a => do
      let (_, nd) ← deref ls.nodes (some a)
      .ok (some nd.value)) none

def htableLpos (m : IntMode) (ht : HashTable Value) (key value : Bytes) : Except Fault Int :=
  htableRead m ht key (fun v => do listPos (← v.asList) value) (-1)

/-- The loop of `htable_hgetall` and `htable_hkeyvals` over the slots: `out` writes what an item adds to
    the result, and the loop returns once the result has as many strings as the counter says. -/
def hashLoop (out : HashTableItem Value → Except Fault (List Bytes)) (full : Int) (res : List Bytes) :
    List (Probing.Slot (HashTableItem Value)) → Except Fault (Option (List Bytes))
  | [] => .ok none
  | slot :: slots => do
    let add ← match slot with
      | .live item => out item
      | _ => .ok []
    if (res ++ add).length = full then .ok (some (res ++ add)) else hashLoop out full (res ++ add) slots

def htableHgetall (m : IntMode) (ht : HashTable Value) (key : Bytes) : Except Fault (Option (List Bytes)) :=
  htableRead m ht key (fun v => do
    let tmp ← v.asHash
    hashLoop (fun item => do .ok [item.key, ← item.value.asStr]) (tmp.used * 2) [] tmp.slots) none

def htableHkeyvals (m : IntMode) (ht : HashTable Value) (key : Bytes) (ky : Int) :
    Except Fault (Option (List Bytes)) :=
  htableRead m ht key (fun v => do
    let tmp ← v.asHash
    hashLoop (fun item => do if ky ≠ 0 then .ok [item.key] else .ok [← item.value.asStr]) tmp.used []
      tmp.slots) none

def htableLrange (m : IntMode) (ht : HashTable Value) (key : Bytes) (begin_ end_ : Int) :
    Except Fault (Option (List Bytes)) := do
  if isType (← htableType m ht key) (str "list") then
    match ← htableSearch m ht key with
    | none => .error .nullPointer
    | some item => .ok (some (← listRange (← item.value.asList) begin_ end_))
  else .ok none

def htableSmembers (m : IntMode) (ht : HashTable Value) (key : Bytes) : Except Fault (Option (List Bytes)) :=
  htableRead m ht key (fun v => do .ok (some (setMembers (← v.asSet)))) none

end MemKey
