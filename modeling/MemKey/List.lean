import MemKey.Helper
import MemKey.Lib.Linked

/-! `list.c`: a doubly linked list with its nodes in a heap of its own. No other object points at the
    nodes of a list. -/

namespace MemKey
open Linked

/-- `struct ListNode`. -/
abbrev ListNode := Node Bytes

/-- `struct List`. -/
structure CList where
  len : Int
  head : Option ℕ
  tail : Option ℕ
  nodes : Heap Bytes
  deriving DecidableEq, Repr

inductive ListDirection where
  | LEFT
  | RIGHT
  deriving DecidableEq, Repr

/-- The node a pointer points at, with its address. -/
def deref (nodes : Heap Bytes) : Option ℕ → Except Fault (ℕ × ListNode)
  | none => .error .nullPointer
  | some a =>
    match nodes.read a with
    | some nd => .ok (a, nd)
    | none => .error .dangling

/-- `p->next = q`. -/
def setNext (nodes : Heap Bytes) (p q : Option ℕ) : Except Fault (Heap Bytes) := do
  let (a, nd) ← deref nodes p
  .ok (nodes.write a { nd with next := q })

/-- `p->prev = q`. -/
def setPrev (nodes : Heap Bytes) (p q : Option ℕ) : Except Fault (Heap Bytes) := do
  let (a, nd) ← deref nodes p
  .ok (nodes.write a { nd with prev := q })

def listInit : CList := { len := 0, head := none, tail := none, nodes := [] }

def listLpush (ls : CList) (value : Bytes) : Except Fault CList :=
  let new := some ls.nodes.length
  if ls.len > 0 then do
    let nodes ← setPrev (ls.nodes.alloc ⟨value, ls.head, none⟩) ls.head new
    .ok { len := ls.len + 1, head := new, tail := ls.tail, nodes }
  else .ok { len := ls.len + 1, head := new, tail := new, nodes := ls.nodes.alloc ⟨value, none, none⟩ }

def listRpush (ls : CList) (value : Bytes) : Except Fault CList :=
  let new := some ls.nodes.length
  if ls.len > 0 then do
    let nodes ← setNext (ls.nodes.alloc ⟨value, none, ls.tail⟩) ls.tail new
    .ok { len := ls.len + 1, head := ls.head, tail := new, nodes }
  else .ok { len := ls.len + 1, head := new, tail := new, nodes := ls.nodes.alloc ⟨value, none, none⟩ }

/-- The popped node keeps its value and is not freed. -/
def listLpop (ls : CList) : Except Fault (CList × Option ℕ) :=
  if ls.len ≤ 0 then .ok (ls, none)
  else do
    let (a, nd) ← deref ls.nodes ls.head
    if ls.len - 1 > 0 then
      let nodes ← setPrev ls.nodes nd.next none
      .ok ({ len := ls.len - 1, head := nd.next, tail := ls.tail, nodes := nodes.write a ⟨nd.value, none, none⟩ },
        some a)
    else
      .ok ({ len := ls.len - 1, head := none, tail := none, nodes := ls.nodes.write a ⟨nd.value, none, none⟩ },
        some a)

def listRpop (ls : CList) : Except Fault (CList × Option ℕ) :=
  if ls.len ≤ 0 then .ok (ls, none)
  else do
    let (a, nd) ← deref ls.nodes ls.tail
    if ls.len - 1 > 0 then
      let nodes ← setNext ls.nodes nd.prev none
      .ok ({ len := ls.len - 1, head := ls.head, tail := nd.prev, nodes := nodes.write a ⟨nd.value, none, none⟩ },
        some a)
    else
      .ok ({ len := ls.len - 1, head := none, tail := none, nodes := ls.nodes.write a ⟨nd.value, none, none⟩ },
        some a)

/-- `while (i++ < id && cur != NULL) cur = cur->next`, with `n` rounds left. -/
def listSkip (nodes : Heap Bytes) (cur : Option ℕ) : ℕ → Except Fault (Option ℕ)
  | 0 => .ok cur
  | n + 1 =>
    match cur with
    | none => .ok none
    | some a => do
      let (_, nd) ← deref nodes (some a)
      listSkip nodes nd.next n

def listIndex (ls : CList) (id : Int) : Except Fault (Option ℕ) := listSkip ls.nodes ls.head id.toNat

def listSet (ls : CList) (id : Int) (value : Bytes) : Except Fault (CList × Bool) := do
  match ← listSkip ls.nodes ls.head id.toNat with
  | none => .ok (ls, false)
  | some a =>
    let (_, nd) ← deref ls.nodes (some a)
    .ok ({ ls with nodes := ls.nodes.write a { nd with value } }, true)

/-- The loop of `list_pos`; a list has no more nodes than its heap, which bounds the rounds. -/
def listPos.loop (nodes : Heap Bytes) (value : Bytes) (cur : Option ℕ) (i : Int) : ℕ → Except Fault Int
  | 0 => .error .diverges
  | fuel + 1 =>
    match cur with
    | none => .ok (-1)
    | some a => do
      let (_, nd) ← deref nodes (some a)
      if nd.value = value then .ok i else loop nodes value nd.next (i + 1) fuel

def listPos (ls : CList) (value : Bytes) : Except Fault Int :=
  listPos.loop ls.nodes value ls.head 0 (ls.nodes.length + 1)

def nodeDel (ls : CList) (nd : Option ℕ) : Except Fault CList :=
  if ls.head = none ∨ nd = none then .ok ls
  else if ls.len - 1 = 0 then .ok { ls with head := none, tail := none }
  else if nd = ls.head then do
    let (_, n) ← deref ls.nodes nd
    let nodes ← setPrev ls.nodes n.next none
    .ok { ls with head := n.next, nodes }
  else if nd = ls.tail then do
    let (_, n) ← deref ls.nodes nd
    let nodes ← setNext ls.nodes n.prev none
    .ok { ls with tail := n.prev, nodes }
  else do
    let (_, n) ← deref ls.nodes nd
    let nodes ← setNext ls.nodes n.prev n.next
    let (_, n) ← deref nodes nd
    let nodes ← setPrev nodes n.next n.prev
    .ok { ls with nodes }

/-- The loop of `list_rem`: `pos` is the count it was called with, `count` what is left of it, and `i` the
    number of nodes removed so far. -/
def listRem.loop (pos : Int) (value : Bytes) :
    ℕ → CList → (count : Int) → (cur : Option ℕ) → (i : Int) → Except Fault (CList × Int)
  | 0, _, _, _, _ => .error .diverges
  | fuel + 1, ls, count, cur, i =>
    match cur with
    | none => .ok (ls, i)
    | some a =>
      if pos ≠ 0 ∧ count = 0 then .ok (ls, i)
      else do
        let (_, nd) ← deref ls.nodes (some a)
        if nd.value = value then
          let ls ← nodeDel ls (some a)
          -- The link is read after the node is unlinked and before it is freed.
          let (_, nd) ← deref ls.nodes (some a)
          loop pos value fuel { ls with len := ls.len - 1, nodes := ls.nodes.free a }
            (if pos ≥ 0 then count - 1 else count + 1) (if pos ≥ 0 then nd.next else nd.prev) (i + 1)
        else loop pos value fuel ls count (if pos ≥ 0 then nd.next else nd.prev) i

def listRem (ls : CList) (count : Int) (value : Bytes) : Except Fault (CList × Int) :=
  listRem.loop count value (ls.nodes.length + 1) ls count (if count ≥ 0 then ls.head else ls.tail) 0

/-- `while (id < begin) cur = cur->next`, with `n` rounds left. -/
def listRange.skip (nodes : Heap Bytes) (cur : Option ℕ) : ℕ → Except Fault (Option ℕ)
  | 0 => .ok cur
  | n + 1 => do
    let (_, nd) ← deref nodes cur
    skip nodes nd.next n

/-- `while (id <= end) res[i++] = strdup(cur->value)`, with `n` rounds left. -/
def listRange.take (nodes : Heap Bytes) (cur : Option ℕ) : ℕ → Except Fault (List Bytes)
  | 0 => .ok []
  | n + 1 => do
    let (_, nd) ← deref nodes cur
    let rest ← take nodes nd.next n
    .ok (nd.value :: rest)

def listRange (ls : CList) (begin_ end_ : Int) : Except Fault (List Bytes) := do
  let cur ← listRange.skip ls.nodes ls.head begin_.toNat
  listRange.take ls.nodes cur (end_ + 1 - max begin_ 0).toNat

end MemKey
