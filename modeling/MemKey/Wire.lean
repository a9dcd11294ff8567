import MemKey.Helper

/-! `server.c` and `client.c`: what passes over a connection, and how the client reads a reply. -/

namespace MemKey

/-- The size of the memory that a message is read into. -/
def bufSize : ℕ := 1024

/-- That memory: what `malloc` left in it, overwritten by what was read. -/
structure Buffer where
  bytes : List UInt8
  size : bytes.length = bufSize

/-- `read(cfd, msg, 1024)`, which takes the first `n` bytes of the stream, or the first 1024 of them: the
    memory and the rest of the stream. -/
def Buffer.read (msg : Buffer) (stream : List UInt8) (n : ℕ) : Buffer × List UInt8 :=
  let got := stream.take (min n bufSize)
  (⟨got ++ msg.bytes.drop got.length, by
    have := msg.size
    simp only [got, List.length_append, List.length_drop, List.length_take]
    omega⟩, stream.drop (min n bufSize))

/-- The C string in a piece of memory: the bytes before the first NUL, which has to be there. -/
def cstr (mem : List UInt8) : Except Fault Bytes :=
  if 0 ∈ mem then .ok (mem.takeWhile (· ≠ 0)) else .error .outOfBounds

/-! ### Both ends -/

/-- The memory with the message, and the rest of the stream. `msg[strlen(msg) - 1]` is no byte of it when the
    message is empty. -/
def readline (msg : Buffer) (stream : List UInt8) (n : ℕ) : Except Fault (List UInt8 × List UInt8) := do
  let (msg, stream) := msg.read stream n
  let s ← cstr msg.bytes
  if s = [] then .error .outOfBounds else .ok (msg.bytes.set (s.length - 1) 0, stream)

/-- What is written: the NUL goes over the connection as well. -/
def writeline (msg : Bytes) : List UInt8 := msg ++ str "\n" ++ [0]

/-- The switch of `MemKey` on the first byte of the reply: what the session returns, or none if the reply is
    written and the session goes on. -/
def sessionEnd (resp : Bytes) : Option Int :=
  if resp.take 1 = str "q" then some 0
  else if resp.take 1 = str "x" then some 1
  else none

/-! ### The client -/

/-- The loop of `parse_int` over the digits before a carriage return. -/
def parseInt.loop (n : Int) : List UInt8 → Except Fault Int
  | [] => .error .outOfBounds
  | c :: resp => if c = 13 then .ok n else loop (strtoiStep n c) resp

def parseInt : List UInt8 → Except Fault Int
  | _ :: c :: resp =>
    if c = Decimal.minus then do .ok (wrap32 ((← parseInt.loop 0 resp) * -1))
    else parseInt.loop 0 (c :: resp)
  | _ => .error .outOfBounds

/-- `while (*resp != '\n') resp++; resp++;` -/
def skipLine : List UInt8 → Except Fault (List UInt8)
  | [] => .error .outOfBounds
  | c :: resp => if c = 10 then .ok resp else skipLine resp

/-- `none` is NULL. -/
def parseStr (resp : List UInt8) : Except Fault (Option Bytes) := do
  let n ← parseInt resp
  if n < 0 then .ok none
  else
    let resp ← skipLine resp
    if resp.length < n then .error .outOfBounds
    else .ok (some (← cstr (resp.take n.toNat ++ [0])))

end MemKey
