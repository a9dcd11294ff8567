import MemKey.Session

/-! `client.c`: what the client prints of a reply, and a connection with all that the loop `repl` has printed. -/

namespace MemKey

/-- `sprintf(tmp, "\"%s\"", str); puts(tmp);` -/
def printQuoteEncase (s : Bytes) : Bytes := 34 :: s ++ [34, 10]

/-- The memory that `parse_err` returns: the text before the end of the line, and one byte more, which it allocates
    and leaves as `malloc` gave it. The bounds are unsigned, so that they wrap for a text of less than two bytes. -/
def parseErr (resp : List UInt8) (left : UInt8) : Except Fault (List UInt8) := do
  let text ← cstr resp.tail
  match text.length with
  | 0 => .error .nullPointer
  | 1 => .error .outOfBounds
  | n + 2 => .ok (text.take n ++ [left])

/-- What `parse_resp` prints. -/
def parseResp (resp : List UInt8) (left : UInt8) : Except Fault Bytes :=
  match resp with
  | [] => .error .outOfBounds
  | c :: _ =>
    if c = 36 then do
      match ← parseStr resp with
      | none => .ok (str "(nil)\n")
      | some tmp => .ok (printQuoteEncase tmp)
    else if c = 58 then do .ok (str "(integer) " ++ intostr (← parseInt resp) ++ str "\n")
    else if c = 42 then .ok []
    else if c = 45 then do .ok ((← cstr (← parseErr resp left)) ++ str "\n")
    else .ok []

/-- A connection, and what its client has printed. -/
structure Terminal where
  session : Session
  printed : Bytes

/-- What can happen next. An error message gets the byte behind it as `malloc` left it. -/
structure TerminalAction where
  action : SessionAction
  left : UInt8

def prompt : Bytes := str "redis-kw> "

namespace Terminal

/-- The client prompts before it reads a line. -/
def start (ht : Keyspace) : Terminal := { session := .start ht, printed := prompt }

/-- `char *resp = readline(sfd); parse_resp(resp);` and the prompt of the next round. -/
def receive (t : Terminal) (msg : Buffer) (n : ℕ) (left : UInt8) : Except Fault Terminal := do
  let (mem, _) ← readline msg t.session.toClient n
  let shown ← parseResp mem left
  .ok { session := ← t.session.receive msg n, printed := t.printed ++ shown ++ prompt }

def step (m : IntMode) (t : Terminal) (a : TerminalAction) : Except Fault Terminal :=
  match a.action with
  | .receive msg n => t.receive msg n a.left
  | action => do .ok { t with session := ← t.session.step m action }

end Terminal
end MemKey
