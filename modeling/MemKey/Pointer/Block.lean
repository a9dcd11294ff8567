import MemKey.Htable
import MemKey.Lib.Memory

/-! The memory under `list.c`, `set.c` and `htable.c`: one block for each object that `malloc`, `calloc` or
    `strdup` gives. A pointer is an address, and `none` is NULL. -/

namespace MemKey.Pointer
open Linked Probing

/-- `struct HashTableItem`. -/
structure Item where
  type : ItemType
  key : ℕ
  value : Option ℕ
  deriving DecidableEq, Repr

/-- `struct HashTable` and `struct Set`. -/
structure Head where
  size : ℕ
  used : Int
  items : ℕ
  deriving DecidableEq, Repr

/-- `struct List`. -/
structure Ends where
  len : Int
  head : Option ℕ
  tail : Option ℕ
  deriving DecidableEq, Repr

/-- What lies at an address. An array holds pointers; its `deleted` is the address of `HT_DELETED` or of
    `SET_DELETED`. -/
inductive Block where
  | chars (s : Bytes)
  | item (it : Item)
  | table (t : Head)
  | array (slots : List (Slot ℕ))
  | list (ls : Ends)
  | node (nd : Node ℕ)
  deriving DecidableEq, Repr

namespace Block

def asChars : Block → Option Bytes
  | chars s => some s
  | _ => none

def asItem : Block → Option Item
  | item it => some it
  | _ => none

def asTable : Block → Option Head
  | table t => some t
  | _ => none

def asArray : Block → Option (List (Slot ℕ))
  | array slots => some slots
  | _ => none

def asList : Block → Option Ends
  | list ls => some ls
  | _ => none

def asNode : Block → Option (Node ℕ)
  | node nd => some nd
  | _ => none

end Block

abbrev Prog (α : Type) := Memory.Prog Block Fault α

abbrev Owned := Memory.Owned Block

/-- A load through a pointer to blocks of one kind. -/
def load {γ : Type} (view : Block → Option γ) (a : ℕ) : Prog γ := Memory.loadAs .dangling .wrongType view a

def store (a : ℕ) (b : Block) : Prog Unit := Memory.store .dangling a b

def alloc (b : Block) : Prog ℕ := Memory.alloc b

/-- `free`. -/
def free : Option ℕ → Prog Unit
  | none => pure ()
  | some a => Memory.release .dangling a

/-- A pointer about to be dereferenced. -/
def deref : Option ℕ → Prog ℕ
  | none => throw .nullPointer
  | some a => pure a

def strdup (s : Bytes) : Prog ℕ := alloc (.chars s)

end MemKey.Pointer
