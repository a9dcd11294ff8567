import MemKey.Interpreter

/-! `parser.c`: the tokenizer, a cursor over the message with the character under it, and the commands that
    it makes of the tokens. -/

namespace MemKey

/-- `struct Parser`. The cursor is an `int` that never passes the end of the string. -/
structure Parser where
  string : Bytes
  pos : ℕ
  currentChar : UInt8
  deriving DecidableEq, Repr

/-- `isspace` of the C locale: blank, `\t`, `\n`, `\v`, `\f` and `\r`. -/
def isSpace (c : UInt8) : Bool := c = 32 || (9 ≤ c && c ≤ 13)

/-- `"` or `'`. -/
def isQuote (c : UInt8) : Bool := c = 34 || c = 39

/-- `str[i]`; the terminating NUL is the character after the last one. -/
def charAt (str : Bytes) (i : ℕ) : UInt8 := str.getD i 0

def parserInit (msg : Bytes) : Parser := { string := msg, pos := 0, currentChar := charAt msg 0 }

def parserAdvance (parser : Parser) : Parser :=
  if parser.pos < parser.string.length then
    { parser with pos := parser.pos + 1, currentChar := charAt parser.string (parser.pos + 1) }
  else parser

/-- More rounds than any loop over the message takes. -/
def Parser.rounds (parser : Parser) : ℕ := parser.string.length + 1

/-- `while (isspace(parser->current_char)) parser_advance(parser);` -/
def skipSpace (parser : Parser) : ℕ → Except Fault Parser
  | 0 => .error .diverges
  | fuel + 1 => if isSpace parser.currentChar then skipSpace (parserAdvance parser) fuel else .ok parser

/-- The loops of `parse_id` and `parse_string`: characters are appended to the token until one that `stop`
    accepts, or the end. -/
def gather (stop : UInt8 → Bool) (parser : Parser) (token : Bytes) : ℕ → Except Fault (Parser × Bytes)
  | 0 => .error .diverges
  | fuel + 1 =>
    if !stop parser.currentChar && parser.pos < parser.string.length then
      gather stop (parserAdvance parser) (token ++ [parser.currentChar]) fuel
    else .ok (parser, token)

def parseId (parser : Parser) : Except Fault (Parser × Bytes) := gather isSpace parser [] parser.rounds

/-- A literal ends at a quote of either kind. -/
def parseString (parser : Parser) : Except Fault (Parser × Bytes) := do
  let (parser, token) ← gather isQuote (parserAdvance parser) [] parser.rounds
  .ok (parserAdvance parser, token)

/-- `none` is NULL. -/
def getNextToken (parser : Parser) : Except Fault (Parser × Option Bytes) :=
  if parser.pos < parser.string.length then do
    let parser ← skipSpace parser parser.rounds
    if parser.currentChar = 0 then .ok (parser, none)
    else if isQuote parser.currentChar then
      let (parser, token) ← parseString parser
      .ok (parser, some token)
    else if isSpace parser.currentChar = false then
      let (parser, token) ← parseId parser
      .ok (parser, some token)
    else .ok (parser, none)
  else .ok (parser, none)

/-- `while (get_next_token(dup) != NULL) argc++;` -/
def getArgc.loop (dup : Parser) (argc : Int) : ℕ → Except Fault Int
  | 0 => .error .diverges
  | fuel + 1 => do
    match ← getNextToken dup with
    | (_, none) => .ok argc
    | (dup, some _) => loop dup (argc + 1) fuel

/-- The tokens after the command, counted by a second parser. -/
def getArgc (parser : Parser) : Except Fault Int := do
  let dup := parserInit parser.string
  .ok ((← getArgc.loop dup 0 dup.rounds) - 1)

/-- The names that `parse` compares the first token with, in its order. -/
def commandNames : List (String × CommandType) :=
  [("del", .DEL), ("exists", .EXISTS), ("type", .TYPE), ("set", .SET), ("get", .GET), ("mset", .MSET),
    ("mget", .MGET), ("incr", .INCR), ("decr", .DECR), ("incrby", .INCRBY), ("decrby", .DECRBY),
    ("strlen", .STRLEN), ("hset", .HSET), ("hget", .HGET), ("hdel", .HDEL), ("hgetall", .HGETALL),
    ("hexists", .HEXISTS), ("hkeys", .HKEYS), ("hvals", .HVALS), ("hmget", .HMGET), ("hlen", .HLEN),
    ("lpush", .LPUSH), ("lpop", .LPOP), ("rpush", .RPUSH), ("llen", .LLEN), ("lindex", .LINDEX),
    ("lrange", .LRANGE), ("lset", .LSET), ("lrem", .LREM), ("lpos", .LPOS), ("rpop", .RPOP), ("sadd", .SADD),
    ("srem", .SREM), ("sismember", .SISMEMBER), ("smembers", .SMEMBERS), ("smismember", .SMISMEMBER),
    ("quit", .QUIT), ("shutdown", .SHUTDOWN)]

def commandType (token : Bytes) : CommandType :=
  match commandNames.find? fun p => str p.1 = token with
  | some (_, type) => type
  | none => .UNKNOWN

/-- The argument loop of `parse`, with `n` arguments to go. -/
def parseArgs (parser : Parser) : ℕ → Except Fault (Parser × List Bytes)
  | 0 => .ok (parser, [])
  | n + 1 => do
    match ← getNextToken parser with
    | (_, none) => .error .nullPointer
    | (parser, some token) =>
      let (parser, args) ← parseArgs parser n
      .ok (parser, token :: args)

def parse (msg : Bytes) : Except Fault Command := do
  let (parser, token) ← getNextToken (parserInit msg)
  let argc ← getArgc parser
  if argc ≥ 0 then
    match token with
    | none => .error .nullPointer
    | some token =>
      let (_, argv) ← parseArgs parser argc.toNat
      .ok ⟨commandType token, argv⟩
  else .ok ⟨.NOOP, []⟩

end MemKey
