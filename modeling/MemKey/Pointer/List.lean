import MemKey.Pointer.Block

/-! `list.c` on the blocks of the memory: the functions that make, change and free lists. -/

namespace MemKey.Pointer
open Linked

def listInit : Prog ℕ := alloc (.list ⟨0, none, none⟩)

def nodeInit (value : Bytes) : Prog ℕ := do
  let v ← strdup value
  alloc (.node ⟨v, none, none⟩)

def nodeFree (node : ℕ) : Prog Unit := do
  let nd ← load Block.asNode node
  free (some nd.value)
  free (some node)

/-- `while (ls->len--)`; the model gives the loop one round for each node. -/
def listFree.loop (ls : ℕ) : ℕ → Option ℕ → Prog Unit
  | 0, _ => throw .diverges
  | fuel + 1, cur => do
    let l ← load Block.asList ls
    store ls (.list { l with len := l.len - 1 })
    if l.len = 0 then pure ()
    else
      let a ← deref cur
      let nd ← load Block.asNode a
      nodeFree a
      loop ls fuel nd.next

def listFree : Option ℕ → Prog Unit
  | none => pure ()
  | some ls => do
    let l ← load Block.asList ls
    listFree.loop ls (l.len.toNat + 1) l.head
    free (some ls)

/-- `p->next = q`. -/
def setNext (p q : Option ℕ) : Prog Unit := do
  let a ← deref p
  let nd ← load Block.asNode a
  store a (.node { nd with next := q })

/-- `p->prev = q`. -/
def setPrev (p q : Option ℕ) : Prog Unit := do
  let a ← deref p
  let nd ← load Block.asNode a
  store a (.node { nd with prev := q })

def listLpush (ls : ℕ) (value : Bytes) : Prog Unit := do
  let new ← nodeInit value
  let l ← load Block.asList ls
  if l.len > 0 then
    setNext (some new) l.head
    setPrev l.head (some new)
    store ls (.list ⟨l.len + 1, some new, l.tail⟩)
  else store ls (.list ⟨l.len + 1, some new, some new⟩)

def listRpush (ls : ℕ) (value : Bytes) : Prog Unit := do
  let new ← nodeInit value
  let l ← load Block.asList ls
  if l.len > 0 then
    setPrev (some new) l.tail
    setNext l.tail (some new)
    store ls (.list ⟨l.len + 1, l.head, some new⟩)
  else store ls (.list ⟨l.len + 1, some new, some new⟩)

/-- `node->next = node->prev = NULL`. -/
def unlink (node : ℕ) : Prog Unit := do
  setPrev (some node) none
  setNext (some node) none

def listLpop (ls : ℕ) : Prog (Option ℕ) := do
  let l ← load Block.asList ls
  if l.len ≤ 0 then pure none
  else
    let a ← deref l.head
    if l.len - 1 > 0 then
      let nd ← load Block.asNode a
      setPrev nd.next none
      store ls (.list ⟨l.len - 1, nd.next, l.tail⟩)
    else store ls (.list ⟨l.len - 1, none, none⟩)
    unlink a
    pure (some a)

def listRpop (ls : ℕ) : Prog (Option ℕ) := do
  let l ← load Block.asList ls
  if l.len ≤ 0 then pure none
  else
    let a ← deref l.tail
    if l.len - 1 > 0 then
      let nd ← load Block.asNode a
      setNext nd.prev none
      store ls (.list ⟨l.len - 1, l.head, nd.prev⟩)
    else store ls (.list ⟨l.len - 1, none, none⟩)
    unlink a
    pure (some a)

def listPush (ls : ℕ) (value : Bytes) : ListDirection → Prog Unit
  | .LEFT => listLpush ls value
  | .RIGHT => listRpush ls value

def listPop (ls : ℕ) : ListDirection → Prog (Option ℕ)
  | .LEFT => listLpop ls
  | .RIGHT => listRpop ls

/-- `while (i++ < id && cur != NULL) cur = cur->next`, with `n` rounds left. -/
def listSkip (cur : Option ℕ) : ℕ → Prog (Option ℕ)
  | 0 => pure cur
  | n + 1 =>
    match cur with
    | none => pure none
    | some a => do
      let nd ← load Block.asNode a
      listSkip nd.next n

def listSet (ls : ℕ) (id : Int) (value : Bytes) : Prog Bool := do
  let l ← load Block.asList ls
  match ← listSkip l.head id.toNat with
  | none => pure false
  | some a =>
    let nd ← load Block.asNode a
    free (some nd.value)
    let v ← strdup value
    store a (.node { nd with value := v })
    pure true

def nodeDel (ls : ℕ) (nd : Option ℕ) : Prog Unit := do
  let l ← load Block.asList ls
  if l.head = none ∨ nd = none then pure ()
  else if l.len - 1 = 0 then store ls (.list { l with head := none, tail := none })
  else if nd = l.head then
    let n ← load Block.asNode (← deref nd)
    store ls (.list { l with head := n.next })
    setPrev n.next none
  else if nd = l.tail then
    let n ← load Block.asNode (← deref nd)
    store ls (.list { l with tail := n.prev })
    setNext n.prev none
  else
    let n ← load Block.asNode (← deref nd)
    setNext n.prev n.next
    let n ← load Block.asNode (← deref nd)
    setPrev n.next n.prev

/-- The loop of `list_rem`: `pos` is the count it was called with, `count` what is left of it, and `i` the
    number of nodes removed so far. -/
def listRem.loop (ls : ℕ) (pos : Int) (value : Bytes) : ℕ → Int → Option ℕ → Int → Prog Int
  | 0, _, _, _ => throw .diverges
  | fuel + 1, count, cur, i =>
    match cur with
    | none => pure i
    | some a =>
      if pos ≠ 0 ∧ count = 0 then pure i
      else do
        let nd ← load Block.asNode a
        let s ← load Block.asChars nd.value
        if s = value then
          nodeDel ls (some a)
          let l ← load Block.asList ls
          store ls (.list { l with len := l.len - 1 })
          -- The link is read after the node is unlinked and before it is freed.
          let nd ← load Block.asNode a
          nodeFree a
          loop ls pos value fuel (if pos ≥ 0 then count - 1 else count + 1)
            (if pos ≥ 0 then nd.next else nd.prev) (i + 1)
        else loop ls pos value fuel count (if pos ≥ 0 then nd.next else nd.prev) i

def listRem (ls : ℕ) (count : Int) (value : Bytes) : Prog Int := do
  let l ← load Block.asList ls
  listRem.loop ls count value (l.len.toNat + 1) count (if count ≥ 0 then l.head else l.tail) 0

end MemKey.Pointer
