import Mathlib.Data.List.ReduceOption
import MemKey.Interpreter

/-! The buffers of `intostr` and of the `reply_*` functions: the byte counts that the code computes from `ndigits`
    and `strlen`, and the bytes that `sprintf` and `strncat` then write. The constant replies are `strdup`ed. The
    strings have any length here, so the `int`s that take a length wrap. -/

namespace MemKey

/-- A buffer: the number of bytes asked for, as the code computes it, and the number of bytes written, with the NUL. -/
structure Alloc where
  requested : Int
  written : ℕ
  deriving DecidableEq, Repr

/-- The parameter of `dmalloc` is a `size_t`, and a negative `int` asks for nearly 2^64 bytes: `malloc` fails, and the
    program exits before it writes anything. -/
def Alloc.Exits (b : Alloc) : Prop := b.requested < 0

/-- Nothing is written past the end of the buffer. -/
def Alloc.Fits (b : Alloc) : Prop := b.Exits ∨ b.written ≤ b.requested

/-- The same for the buffers of a call, one after another, up to the one at which the program exits. -/
def AllFit : List Alloc → Prop
  | [] => True
  | b :: bs => b.Exits ∨ b.written ≤ b.requested ∧ AllFit bs

def intostrAlloc (x : Int) : Alloc := ⟨ndigits x + 2, (intostr x).length + 1⟩

/-- The result of `strlen` goes into the `int` `n`, which `sprintf` prints. -/
def stringText (s : Bytes) : Bytes := str "$" ++ intostr (wrap32 s.length) ++ crlf ++ s ++ crlf

/-- The sum is one of `int`s. -/
def replyStringAlloc (s : Bytes) : Alloc :=
  let n := wrap32 s.length
  ⟨wrap32 (n + ndigits n + 7), (stringText s).length + 1⟩

def replyIntegerAlloc (x : Int) : Alloc := ⟨ndigits x + 5, (replyInteger x).length + 1⟩

/-- The bytes that the loops of `is_number` and `strtoi` look at: their bound is an `int` as well. -/
def scanned (s : Bytes) : Bytes := s.take (wrap32 s.length).toNat

/-- The reply of an element that is not NULL. -/
def elementText (s : Bytes) : Bytes :=
  if isNumber (scanned s) then replyInteger (strtoi (scanned s)) else stringText s

def elementAlloc (s : Bytes) : Alloc :=
  if isNumber (scanned s) then replyIntegerAlloc (strtoi (scanned s)) else replyStringAlloc s

/-- The reply of an element. -/
def cellText : Option Bytes → Bytes
  | none => replyString none
  | some s => elementText s

def cellAllocs : Option Bytes → List Alloc
  | none => []
  | some s => [elementAlloc s]

/-- The loops of `reply_array_n` and `reply_array`: the reply of an element has a buffer of its own, and `res` is
    reallocated to take it. -/
def arrayAllocs (res : Bytes) : List (Option Bytes) → List Alloc
  | [] => []
  | e :: arr =>
    cellAllocs e ++ ⟨res.length + (cellText e).length + 1, (res ++ cellText e).length + 1⟩ ::
      arrayAllocs (res ++ cellText e) arr

/-- `n` is an `int`, and the array holds at least as many elements. -/
def replyArrayNAllocs (arr : List (Option Bytes)) (n : Int) : List Alloc :=
  let res := str "*" ++ intostr n ++ crlf
  ⟨ndigits n + 5, res.length + 1⟩ :: arrayAllocs res (arr.take n.toNat)

/-- The elements are counted in the `int` `n`. -/
def replyArrayAllocs : Option (List Bytes) → List Alloc
  | none => []
  | some arr =>
    let n := wrap32 arr.length
    let res := arr.flatMap elementText
    ⟨1, 1⟩ :: arrayAllocs [] (arr.map some) ++
      [⟨res.length + ndigits n + 5, (str "*" ++ intostr n ++ crlf ++ res).length + 1⟩]

/-- `given` is any `int` here; the handlers pass `argc`. -/
def replyErrArgcAlloc (given : Int) (expected : String) : Alloc :=
  ⟨ndigits given + (str expected).length + 54, (str "-ERR wrong number of arguments (given " ++ intostr given ++
    str ", expected " ++ str expected ++ str ")" ++ crlf).length + 1⟩

end MemKey
