import MemKey.Parser
import MemKey.Wire

/-! A connection with both of its ends: the loop `repl` of the client and the loop `MemKey` of the server,
    over two streams of bytes. -/

namespace MemKey

/-- The two streams, where both ends are, and what has happened so far. -/
structure Session where
  ht : Keyspace
  /-- The bytes that a `read` has not yet taken, in each direction. -/
  toServer : List UInt8
  toClient : List UInt8
  /-- The client has sent a request and reads the reply next. -/
  waiting : Bool
  /-- The client has closed the connection. -/
  closed : Bool
  /-- What `MemKey` has returned. -/
  ended : Option Int
  /-- The lines that the client has sent, and the messages that the server has handed to `parse`. -/
  sent : List Bytes
  messages : List Bytes
  /-- The replies that `interpret` has given, and the ones that the client has read. -/
  replies : List Bytes
  shown : List Bytes

/-- What can happen next. A `read` gets its memory as `malloc` left it, and the number of bytes it takes. -/
inductive SessionAction where
  | request (line : Bytes)
  | serve (msg : Buffer) (n : ℕ)
  | receive (msg : Buffer) (n : ℕ)
  | close

namespace Session

def start (ht : Keyspace) : Session :=
  { ht, toServer := [], toClient := [], waiting := false, closed := false, ended := none, sent := [],
    messages := [], replies := [], shown := [] }

/-- `fgets(inp, 1024, stdin); writeline(sfd, inp);` -/
def request (s : Session) (line : Bytes) : Session :=
  { s with toServer := s.toServer ++ writeline line, waiting := true, sent := s.sent ++ [line] }

/-- One round of `MemKey`. -/
def serve (m : IntMode) (s : Session) (msg : Buffer) (n : ℕ) : Except Fault Session := do
  let (mem, toServer) ← readline msg s.toServer n
  let line ← cstr mem
  let cmd ← parse line
  let (ht, resp) ← interpret m s.ht cmd
  -- `resp` is a C string: the switch and `%s` see the bytes before its NUL.
  let resp := resp.takeWhile (· ≠ 0)
  let s := { s with ht, toServer, messages := s.messages ++ [line], replies := s.replies ++ [resp] }
  match sessionEnd resp with
  | some code => .ok { s with ended := some code }
  | none => .ok { s with toClient := s.toClient ++ writeline resp }

/-- `char *resp = readline(sfd); parse_resp(resp);` -/
def receive (s : Session) (msg : Buffer) (n : ℕ) : Except Fault Session := do
  let (mem, toClient) ← readline msg s.toClient n
  let resp ← cstr mem
  .ok { s with toClient, waiting := false, shown := s.shown ++ [resp] }

def step (m : IntMode) (s : Session) : SessionAction → Except Fault Session
  | .request line => .ok (s.request line)
  | .serve msg n => s.serve m msg n
  | .receive msg n => s.receive msg n
  | .close => .ok { s with closed := true }

end Session

/-- What `fgets(inp, 1024, stdin)` reads: up to 1023 characters, the last of them a newline at most. -/
def FgetsLine (line : Bytes) : Prop :=
  line ≠ [] ∧ line.length < bufSize ∧ 0 ∉ line ∧ 10 ∉ line.dropLast

instance (line : Bytes) : Decidable (FgetsLine line) := inferInstanceAs (Decidable (_ ∧ _ ∧ _ ∧ _))

/-- A `read` takes up to 1024 of the bytes that are there, at least one; it returns 0 when there are none and
    the other end is closed. -/
def Delivers (stream : List UInt8) (closed : Prop) (n : ℕ) : Prop :=
  (0 < n ∧ n ≤ bufSize ∧ n ≤ stream.length) ∨ (n = 0 ∧ stream = [] ∧ closed)

instance (stream : List UInt8) (closed : Prop) [Decidable closed] (n : ℕ) : Decidable (Delivers stream closed n) :=
  inferInstanceAs (Decidable (_ ∨ _))

/-- The actions that are possible. -/
def Session.Enabled (s : Session) : SessionAction → Prop
  | .request line => s.waiting = false ∧ s.closed = false ∧ FgetsLine line
  | .serve _ n => s.ended = none ∧ Delivers s.toServer (s.closed = true) n
  | .receive _ n => s.waiting = true ∧ s.closed = false ∧ Delivers s.toClient (s.ended ≠ none) n
  | .close => s.closed = false

instance (s : Session) : (a : SessionAction) → Decidable (s.Enabled a)
  | .request _ => inferInstanceAs (Decidable (_ ∧ _ ∧ _))
  | .serve .. => inferInstanceAs (Decidable (_ ∧ _))
  | .receive .. => inferInstanceAs (Decidable (_ ∧ _ ∧ _))
  | .close => inferInstanceAs (Decidable (_ = _))

end MemKey
