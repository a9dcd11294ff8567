import MemKey.Lib.Decimal
import MemKey.Lib.Probing

/-! `helper.c`, with the data that every file shares: C strings as their bytes before the NUL, the ways
    a run can go wrong, and the two readings of `int` arithmetic. -/

namespace MemKey

/-- A C string: its bytes without the terminating NUL. -/
abbrev Bytes := List UInt8

/-- The bytes of a string literal of the source. -/
def str (s : String) : Bytes := s.toList.map fun c => c.toNat.toUInt8

/-- What the program can run into instead of returning. -/
inductive Fault where
  /-- NULL is dereferenced or handed to a string function. -/
  | nullPointer
  /-- A stored object is read as an object of another type. -/
  | wrongType
  /-- An index or a pointer leaves the array it belongs to. -/
  | outOfBounds
  /-- A freed node is dereferenced. -/
  | dangling
  /-- A loop or a recursion outlives the bound that the model gives it. -/
  | diverges
  deriving DecidableEq, Repr

/-- An `int` in two's complement, as the built program wraps it. -/
def wrap32 (x : Int) : Int := x.bmod (2 ^ 32)

/-- How the `int` arithmetic on table sizes and loads is read: exactly, or as the built program
    wraps it. -/
inductive IntMode where
  | exact
  | wrap
  deriving DecidableEq, Repr

def IntMode.int : IntMode → Int → Int
  | .exact, x => x
  | .wrap, x => wrap32 x

/-- The values of type `int`. -/
def FitsInt (x : Int) : Prop := -2 ^ 31 ≤ x ∧ x < 2 ^ 31

instance (x : Int) : Decidable (FitsInt x) := inferInstanceAs (Decidable (_ ∧ _))

/-- The result of an `int` operation where C defines it. -/
def checked (x : Int) : Option Int := if FitsInt x then some x else none

/-! ### Primes -/

/-- The loop of `is_prime` over the odd divisors `i`; `i <= floor(sqrt(x))` is `i * i ≤ x`. The last
    argument bounds the number of rounds. -/
def isPrime.loop (x i : ℕ) : ℕ → Bool
  | 0 => true
  | fuel + 1 =>
    if i * i ≤ x then
      if x % i = 0 then false else loop x (i + 2) fuel
    else true

def isPrime (x : Int) : Bool :=
  if x < 2 then false
  else if x = 2 then true
  else if x % 2 = 0 then false
  else isPrime.loop x.toNat 3 x.toNat

/-- The loop of `next_prime`. There is a prime below twice any positive number, so `x` rounds suffice. -/
def nextPrime.loop (y : Int) : ℕ → Int
  | 0 => y
  | fuel + 1 => if isPrime y then y else loop (y + 1) fuel

def nextPrime (x : Int) : Int :=
  if x < 2 then 2 else nextPrime.loop x x.toNat

/-! ### Hashes -/

/-- A `char`, which is signed, converted to `int` and then to `unsigned long`. -/
def charToULong (c : UInt8) : UInt64 := c.toInt8.toInt64.toUInt64

def djb2 (str : Bytes) (size : ℕ) : ℕ :=
  (str.foldl (fun (hash : UInt64) c => ((hash <<< 5) + hash) + charToULong c) 5381).toNat % size

def sdbm (str : Bytes) (size : ℕ) : ℕ :=
  (str.foldl (fun (hash : UInt64) c => charToULong c + (hash <<< 6) + (hash <<< 16) - hash) 0).toNat % size

/-- The slot of probe `i`. The remainder takes the sign of `res`, so that a product that has wrapped
    can give a negative index. -/
def hashFunc (m : IntMode) (key : Bytes) (size i : ℕ) : Int :=
  let hash : Int := djb2 key size
  let res : Int := if i = 0 then hash else m.int (hash + m.int (i * sdbm key size))
  res.tmod size

/-- `hash_func` as far as C defines it: no `int` operation overflows. -/
def hashFuncChecked (key : Bytes) (size i : ℕ) : Option Int :=
  let hash : Int := djb2 key size
  let res : Option Int := if i = 0 then some hash else do checked (hash + (← checked (i * sdbm key size)))
  res.map fun res => res.tmod size

/-- The probe path of a key in a table of `size` slots; a negative index is outside the table. -/
def probePath (m : IntMode) (size : ℕ) (key : Bytes) (i : ℕ) : Option ℕ :=
  let hash := hashFunc m key size i
  if 0 ≤ hash then some hash.toNat else none

/-! ### Numbers as text -/

def isNumber (str : Bytes) : Bool :=
  match str with
  | [] => true
  | c :: cs => if c = Decimal.minus then cs.all Decimal.isDigit else (c :: cs).all Decimal.isDigit

/-- One round of the digit loop: `res = res * 10 + (c - '0')` on an `int`. -/
def strtoiStep (res : Int) (c : UInt8) : Int := wrap32 (wrap32 (res * 10) + (c.toInt8.toInt - 48))

def strtoi (str : Bytes) : Int :=
  match str with
  | [] => 0
  | c :: cs =>
    if c = Decimal.minus then wrap32 (cs.foldl strtoiStep 0 * -1) else (c :: cs).foldl strtoiStep 0

/-- One round of the digit loop as far as C defines it. -/
def strtoiCheckedStep (res : Int) (c : UInt8) : Option Int := do
  checked ((← checked (res * 10)) + (c.toInt8.toInt - 48))

/-- `strtoi` as far as C defines it. -/
def strtoiChecked (str : Bytes) : Option Int :=
  match str with
  | [] => some 0
  | c :: cs =>
    if c = Decimal.minus then do checked ((← cs.foldlM strtoiCheckedStep 0) * -1)
    else (c :: cs).foldlM strtoiCheckedStep 0

/-- The loop of `ndigits`; the last argument bounds the number of rounds. -/
def ndigits.loop (n res : Int) : ℕ → Int
  | 0 => res
  | fuel + 1 => if n > 0 then loop (n / 10) (res + 1) fuel else res

/-- `x * -1` is `x` again for the least `int`. -/
def ndigits (x : Int) : Int :=
  let n := if x < 0 then wrap32 (x * -1) else x
  ndigits.loop n 0 n.toNat

/-- `sprintf("%d")`. -/
def intostr (x : Int) : Bytes := Decimal.int x

end MemKey
