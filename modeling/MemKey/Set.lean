import MemKey.Table

/-! `set.c`: a set of strings is a table whose entries are their own keys. -/

namespace MemKey

/-- `struct Set`. -/
abbrev CSet := Table Bytes

def setInit (size : Int) : CSet := Table.init size

def setAdd (m : IntMode) (set : CSet) (key : Bytes) : Except Fault (CSet × Bool) :=
  Table.add m id true Table.depth set key

def setRem (m : IntMode) (set : CSet) (key : Bytes) : Except Fault (CSet × Bool) :=
  Table.remove m id true set key

def setIsmember (m : IntMode) (set : CSet) (key : Bytes) : Except Fault Bool := do
  .ok (← Table.find m id set key).isSome

def setMembers (set : CSet) : List Bytes := set.entries

end MemKey
