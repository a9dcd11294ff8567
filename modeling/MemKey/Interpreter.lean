import MemKey.Htable

/-! `interpreter.c`: the replies and one handler for each command. A handler maps the keyspace and the
    command to the new keyspace and the reply. -/

namespace MemKey

inductive CommandType where
  | DEL | EXISTS | TYPE
  | SET | GET | MSET | MGET | INCR | DECR | INCRBY | DECRBY | STRLEN
  | HSET | HGET | HDEL | HGETALL | HEXISTS | HKEYS | HVALS | HMGET | HLEN
  | LPUSH | LPOP | RPUSH | RPOP | LLEN | LINDEX | LRANGE | LSET | LREM | LPOS
  | SADD | SREM | SISMEMBER | SMEMBERS | SMISMEMBER
  | QUIT | SHUTDOWN | UNKNOWN | NOOP
  deriving DecidableEq, Repr

/-- `struct Command`; `argc` is the number of arguments. -/
structure Command where
  type : CommandType
  argv : List Bytes
  deriving DecidableEq, Repr

def Command.argc (cmd : Command) : ℕ := cmd.argv.length

/-! ### Replies -/

def crlf : Bytes := str "\r\n"

/-- `none` is NULL. -/
def replyString : Option Bytes → Bytes
  | none => str "$-1" ++ crlf
  | some s => str "$" ++ intostr s.length ++ crlf ++ s ++ crlf

def replyInteger (x : Int) : Bytes := str ":" ++ intostr x ++ crlf

/-- An element of an array: text that looks like a number goes out as an integer. -/
def replyElement (s : Bytes) : Bytes :=
  if isNumber s then replyInteger (strtoi s) else replyString (some s)

/-- An element of an array that may hold NULL. -/
def replyCell : Option Bytes → Bytes
  | none => replyString none
  | some s => replyElement s

def replyArrayN (arr : List (Option Bytes)) : Bytes :=
  arr.foldl (fun res e => res ++ replyCell e) (str "*" ++ intostr arr.length ++ crlf)

/-- `none` is the NULL array, the list is an array with a NULL at its end; `n` counts its strings. -/
def replyArray : Option (List Bytes) → Bytes
  | none => str "*0" ++ crlf
  | some arr =>
    let (res, n) := arr.foldl (fun (res, n) s => (res ++ replyElement s, n + 1)) (([] : Bytes), (0 : Int))
    str "*" ++ intostr n ++ crlf ++ res

def replyErrArgc (given : ℕ) (expected : String) : Bytes :=
  str "-ERR wrong number of arguments (given " ++ intostr given ++ str ", expected " ++ str expected ++
    str ")" ++ crlf

def replyErrType : Bytes := str "-ERR wrongtype operation" ++ crlf

def replyErrIntid : Bytes := str "-ERR value is not an integer or out of range" ++ crlf

/-! ### Handlers -/

abbrev Keyspace := HashTable Value

/-- What a handler returns. -/
abbrev Exec := Except Fault (Keyspace × Bytes)

/-- The guard of most handlers: `body` runs if the key is missing or of the expected type. -/
def typed (m : IntMode) (ht : Keyspace) (key : Bytes) (expected : String) (body : Exec) : Exec := do
  if isType (← htableType m ht key) (str expected) then body else .ok (ht, replyErrType)

/-- `oks += f(ht, arg)` for each argument in turn. -/
def oksLoop {α : Type} (f : Keyspace → α → Except Fault (Keyspace × Bool)) (ht : Keyspace) (oks : Int) :
    List α → Except Fault (Keyspace × Int)
  | [] => .ok (ht, oks)
  | a :: as => do
    let (ht, ok) ← f ht a
    oksLoop f ht (oks + if ok then 1 else 0) as

/-- `argv[i], argv[i + 1]` for every second `i`. -/
def pairs : List Bytes → List (Bytes × Bytes)
  | a :: b :: rest => (a, b) :: pairs rest
  | _ => []

def execDel (m : IntMode) (ht : Keyspace) (cmd : Command) : Exec :=
  if cmd.argc ≥ 1 then do
    let (ht, oks) ← oksLoop (htableDel m) ht 0 cmd.argv
    .ok (ht, replyInteger oks)
  else .ok (ht, replyErrArgc cmd.argc "1+")

def execExists (m : IntMode) (ht : Keyspace) (cmd : Command) : Exec :=
  if cmd.argc ≥ 1 then do
    let (ht, oks) ← oksLoop (fun ht key => do .ok (ht, ← htableExists m ht key)) ht 0 cmd.argv
    .ok (ht, replyInteger oks)
  else .ok (ht, replyErrArgc cmd.argc "1+")

def execType (m : IntMode) (ht : Keyspace) (cmd : Command) : Exec :=
  match cmd.argv with
  | [key] => do .ok (ht, replyString (some (← htableType m ht key)))
  | _ => .ok (ht, replyErrArgc cmd.argc "1")

def execSet (m : IntMode) (ht : Keyspace) (cmd : Command) : Exec :=
  match cmd.argv with
  | [] => .ok (ht, replyString (str "OK"))
  | [key] => do
    let (ht, _) ← htableSet m ht key []
    .ok (ht, replyString (str "OK"))
  | [key, value] => do
    let (ht, _) ← htableSet m ht key value
    .ok (ht, replyString (str "OK"))
  | _ => .ok (ht, replyErrArgc cmd.argc "0..2")

def execGet (m : IntMode) (ht : Keyspace) (cmd : Command) : Exec :=
  match cmd.argv with
  | [key] => typed m ht key "string" do .ok (ht, replyString (← htableGet m ht key))
  | _ => .ok (ht, replyErrArgc cmd.argc "1")

def execMset (m : IntMode) (ht : Keyspace) (cmd : Command) : Exec :=
  if cmd.argc ≥ 2 ∧ cmd.argc % 2 = 0 then do
    let (ht, _) ← oksLoop (fun ht (key, value) => htableSet m ht key value) ht 0 (pairs cmd.argv)
    .ok (ht, replyString (str "OK"))
  else .ok (ht, replyErrArgc cmd.argc "2+")

/-- Only the first key is checked. -/
def execMget (m : IntMode) (ht : Keyspace) (cmd : Command) : Exec :=
  match cmd.argv with
  | key :: _ => typed m ht key "string" do
    .ok (ht, replyArrayN (← cmd.argv.mapM fun key => htableGet m ht key))
  | [] => .ok (ht, replyErrArgc cmd.argc "1+")

/-- `exec_incr` and `exec_decr`: `delta` is added to the stored number, or is the number stored. -/
def execStep (m : IntMode) (ht : Keyspace) (cmd : Command) (delta : Int) : Exec :=
  match cmd.argv with
  | [key] => typed m ht key "string" do
    match ← htableGet m ht key with
    | none =>
      let (ht, _) ← htableSet m ht key (intostr delta)
      .ok (ht, replyInteger delta)
    | some res =>
      if isNumber res then
        let tmp := wrap32 (strtoi res + delta)
        let (ht, _) ← htableSet m ht key (intostr tmp)
        .ok (ht, replyInteger tmp)
      else .ok (ht, replyErrIntid)
  | _ => .ok (ht, replyErrArgc cmd.argc "1")

def execIncr (m : IntMode) (ht : Keyspace) (cmd : Command) : Exec := execStep m ht cmd 1

def execDecr (m : IntMode) (ht : Keyspace) (cmd : Command) : Exec := execStep m ht cmd (-1)

/-- `is_number` on a pointer: `strlen` dereferences it. -/
def isNumberPtr : Option Bytes → Except Fault Bool
  | none => .error .nullPointer
  | some s => .ok (isNumber s)

/-- `exec_incrby` and `exec_decrby`: `op` combines the stored number with the argument. A missing key
    takes the argument as it is. -/
def execStepBy (m : IntMode) (ht : Keyspace) (cmd : Command) (op : Int → Int → Int) : Exec :=
  match cmd.argv with
  | [key, arg] => typed m ht key "string" do
    let res ← htableGet m ht key
    if res = none ∧ isNumber arg then
      let tmp := strtoi arg
      let (ht, _) ← htableSet m ht key (intostr tmp)
      .ok (ht, replyInteger tmp)
    else if (← isNumberPtr res) && isNumber arg then
      let tmp := wrap32 (op (strtoi (res.getD [])) (strtoi arg))
      let (ht, _) ← htableSet m ht key (intostr tmp)
      .ok (ht, replyInteger tmp)
    else .ok (ht, replyErrIntid)
  | _ => .ok (ht, replyErrArgc cmd.argc "2")

def execIncrby (m : IntMode) (ht : Keyspace) (cmd : Command) : Exec := execStepBy m ht cmd (· + ·)

def execDecrby (m : IntMode) (ht : Keyspace) (cmd : Command) : Exec := execStepBy m ht cmd (· - ·)

def execStrlen (m : IntMode) (ht : Keyspace) (cmd : Command) : Exec :=
  match cmd.argv with
  | [key] => typed m ht key "string" do
    match ← htableGet m ht key with
    | none => .ok (ht, replyInteger 0)
    | some res => .ok (ht, replyInteger res.length)
  | _ => .ok (ht, replyErrArgc cmd.argc "1")

def execHset (m : IntMode) (ht : Keyspace) (cmd : Command) : Exec :=
  match cmd.argv with
  | key :: args =>
    if cmd.argc ≥ 3 ∧ cmd.argc % 2 = 1 then typed m ht key "hash" do
      let (ht, oks) ← oksLoop (fun ht (field, value) => htableHset m ht key field value) ht 0 (pairs args)
      .ok (ht, replyInteger oks)
    else .ok (ht, replyErrArgc cmd.argc "3+")
  | [] => .ok (ht, replyErrArgc cmd.argc "3+")

def execHget (m : IntMode) (ht : Keyspace) (cmd : Command) : Exec :=
  match cmd.argv with
  | [key, field] => typed m ht key "hash" do .ok (ht, replyString (← htableHget m ht key field))
  | _ => .ok (ht, replyErrArgc cmd.argc "2")

/-- The handlers of a key and one or more arguments that count their successes: `exec_hdel`, `exec_sadd`
    and `exec_srem`. -/
def execOks (m : IntMode) (ht : Keyspace) (cmd : Command) (expected : String)
    (f : Keyspace → Bytes → Bytes → Except Fault (Keyspace × Bool)) : Exec :=
  match cmd.argv with
  | key :: arg :: args => typed m ht key expected do
    let (ht, oks) ← oksLoop (fun ht arg => f ht key arg) ht 0 (arg :: args)
    .ok (ht, replyInteger oks)
  | _ => .ok (ht, replyErrArgc cmd.argc "2+")

def execHdel (m : IntMode) (ht : Keyspace) (cmd : Command) : Exec := execOks m ht cmd "hash" (htableHdel m)

def execHgetall (m : IntMode) (ht : Keyspace) (cmd : Command) : Exec :=
  match cmd.argv with
  | [key] => typed m ht key "hash" do .ok (ht, replyArray (← htableHgetall m ht key))
  | _ => .ok (ht, replyErrArgc cmd.argc "1")

def execHexists (m : IntMode) (ht : Keyspace) (cmd : Command) : Exec :=
  match cmd.argv with
  | [key, field] => typed m ht key "hash" do
    .ok (ht, replyInteger (if (← htableHget m ht key field) = none then 0 else 1))
  | _ => .ok (ht, replyErrArgc cmd.argc "2")

def execHkeyvals (m : IntMode) (ht : Keyspace) (cmd : Command) (ky : Int) : Exec :=
  match cmd.argv with
  | [key] => typed m ht key "hash" do .ok (ht, replyArray (← htableHkeyvals m ht key ky))
  | _ => .ok (ht, replyErrArgc cmd.argc "1")

def execHkeys (m : IntMode) (ht : Keyspace) (cmd : Command) : Exec := execHkeyvals m ht cmd 1

def execHvals (m : IntMode) (ht : Keyspace) (cmd : Command) : Exec := execHkeyvals m ht cmd 0

def execHmget (m : IntMode) (ht : Keyspace) (cmd : Command) : Exec :=
  match cmd.argv with
  | key :: arg :: args => typed m ht key "hash" do
    if ← htableExists m ht key then
      .ok (ht, replyArrayN (← (arg :: args).mapM fun field => htableHget m ht key field))
    else .ok (ht, replyArray none)
  | _ => .ok (ht, replyErrArgc cmd.argc "2+")

def execHlen (m : IntMode) (ht : Keyspace) (cmd : Command) : Exec :=
  match cmd.argv with
  | [key] => typed m ht key "hash" do .ok (ht, replyInteger (← htableHlen m ht key))
  | _ => .ok (ht, replyErrArgc cmd.argc "1")

/-- `len = htable_push(ht, key, arg, dir)` for each argument in turn. -/
def pushLoop (m : IntMode) (dir : ListDirection) (key : Bytes) (ht : Keyspace) (len : Int) :
    List Bytes → Except Fault (Keyspace × Int)
  | [] => .ok (ht, len)
  | a :: as => do
    let (ht, len) ← htablePush m ht key a dir
    pushLoop m dir key ht len as

def execPush (m : IntMode) (ht : Keyspace) (cmd : Command) (dir : ListDirection) : Exec :=
  match cmd.argv with
  | key :: arg :: args => typed m ht key "list" do
    let (ht, len) ← pushLoop m dir key ht 0 (arg :: args)
    .ok (ht, replyInteger len)
  | _ => .ok (ht, replyErrArgc cmd.argc "2+")

def execLpush (m : IntMode) (ht : Keyspace) (cmd : Command) : Exec := execPush m ht cmd .LEFT

def execRpush (m : IntMode) (ht : Keyspace) (cmd : Command) : Exec := execPush m ht cmd .RIGHT

def execPop (m : IntMode) (ht : Keyspace) (cmd : Command) (dir : ListDirection) : Exec :=
  match cmd.argv with
  | [key] => typed m ht key "list" do
    let (ht, res) ← htablePop m ht key dir
    .ok (ht, replyString res)
  | _ => .ok (ht, replyErrArgc cmd.argc "1")

def execLpop (m : IntMode) (ht : Keyspace) (cmd : Command) : Exec := execPop m ht cmd .LEFT

def execRpop (m : IntMode) (ht : Keyspace) (cmd : Command) : Exec := execPop m ht cmd .RIGHT

def execLlen (m : IntMode) (ht : Keyspace) (cmd : Command) : Exec :=
  match cmd.argv with
  | [key] => typed m ht key "list" do .ok (ht, replyInteger (← htableLlen m ht key))
  | _ => .ok (ht, replyErrArgc cmd.argc "1")

def execLindex (m : IntMode) (ht : Keyspace) (cmd : Command) : Exec :=
  match cmd.argv with
  | [key, arg] => typed m ht key "list" do
    if isNumber arg then
      let (code, id) ← htableCheckId m ht key (strtoi arg)
      if code = 0 then .ok (ht, replyErrIntid)
      else if code > 0 then .ok (ht, replyString (← htableLindex m ht key id))
      else .ok (ht, replyString none)
    else .ok (ht, replyErrIntid)
  | _ => .ok (ht, replyErrArgc cmd.argc "2")

def execLrange (m : IntMode) (ht : Keyspace) (cmd : Command) : Exec :=
  match cmd.argv with
  | [key, bgnArg, endArg] => typed m ht key "list" do
    if isNumber bgnArg && isNumber endArg then
      let (code, bgn, end_) ← htableCheckIds m ht key (strtoi bgnArg) (strtoi endArg)
      if code = 0 then .ok (ht, replyErrIntid)
      else if code > 0 then .ok (ht, replyArray (← htableLrange m ht key bgn end_))
      else .ok (ht, replyArray none)
    else .ok (ht, replyErrIntid)
  | _ => .ok (ht, replyErrArgc cmd.argc "3")

def execLset (m : IntMode) (ht : Keyspace) (cmd : Command) : Exec :=
  match cmd.argv with
  | [key, arg, value] => typed m ht key "list" do
    if isNumber arg then
      let (code, id) ← htableCheckId m ht key (strtoi arg)
      if code = 0 then .ok (ht, replyErrIntid)
      else
        let (ht, _) ← htableLset m ht key id value
        .ok (ht, replyString (if code > 0 then some (str "OK") else none))
    else .ok (ht, replyErrIntid)
  | _ => .ok (ht, replyErrArgc cmd.argc "3")

def execLrem (m : IntMode) (ht : Keyspace) (cmd : Command) : Exec :=
  match cmd.argv with
  | [key, arg, value] => typed m ht key "list" do
    if isNumber arg then
      let (ht, res) ← htableLrem m ht key (strtoi arg) value
      .ok (ht, replyInteger res)
    else .ok (ht, replyErrIntid)
  | _ => .ok (ht, replyErrArgc cmd.argc "3")

def execLpos (m : IntMode) (ht : Keyspace) (cmd : Command) : Exec :=
  match cmd.argv with
  | [key, value] => typed m ht key "list" do
    let res ← htableLpos m ht key value
    .ok (ht, if res < 0 then replyString none else replyInteger res)
  | _ => .ok (ht, replyErrArgc cmd.argc "2")

def execSadd (m : IntMode) (ht : Keyspace) (cmd : Command) : Exec := execOks m ht cmd "set" (htableSadd m)

def execSrem (m : IntMode) (ht : Keyspace) (cmd : Command) : Exec := execOks m ht cmd "set" (htableSrem m)

def execSismember (m : IntMode) (ht : Keyspace) (cmd : Command) : Exec :=
  match cmd.argv with
  | [key, value] => typed m ht key "set" do
    .ok (ht, replyInteger (if ← htableSismember m ht key value then 1 else 0))
  | _ => .ok (ht, replyErrArgc cmd.argc "2")

def execSmembers (m : IntMode) (ht : Keyspace) (cmd : Command) : Exec :=
  match cmd.argv with
  | [key] => typed m ht key "set" do .ok (ht, replyArray (← htableSmembers m ht key))
  | _ => .ok (ht, replyErrArgc cmd.argc "1")

def execSmismember (m : IntMode) (ht : Keyspace) (cmd : Command) : Exec :=
  match cmd.argv with
  | key :: arg :: args => typed m ht key "set" do
    if ← htableExists m ht key then
      .ok (ht, replyArrayN (← (arg :: args).mapM fun value => do
        .ok (some (intostr (if ← htableSismember m ht key value then 1 else 0)))))
    else .ok (ht, replyArray none)
  | _ => .ok (ht, replyErrArgc cmd.argc "2+")

/-- `fns[cmd->type]`. -/
def interpret (m : IntMode) (ht : Keyspace) (cmd : Command) : Exec :=
  match cmd.type with
  | .DEL => execDel m ht cmd
  | .EXISTS => execExists m ht cmd
  | .TYPE => execType m ht cmd
  | .SET => execSet m ht cmd
  | .GET => execGet m ht cmd
  | .MSET => execMset m ht cmd
  | .MGET => execMget m ht cmd
  | .INCR => execIncr m ht cmd
  | .DECR => execDecr m ht cmd
  | .INCRBY => execIncrby m ht cmd
  | .DECRBY => execDecrby m ht cmd
  | .STRLEN => execStrlen m ht cmd
  | .HSET => execHset m ht cmd
  | .HGET => execHget m ht cmd
  | .HDEL => execHdel m ht cmd
  | .HGETALL => execHgetall m ht cmd
  | .HEXISTS => execHexists m ht cmd
  | .HKEYS => execHkeys m ht cmd
  | .HVALS => execHvals m ht cmd
  | .HMGET => execHmget m ht cmd
  | .HLEN => execHlen m ht cmd
  | .LPUSH => execLpush m ht cmd
  | .LPOP => execLpop m ht cmd
  | .RPUSH => execRpush m ht cmd
  | .RPOP => execRpop m ht cmd
  | .LLEN => execLlen m ht cmd
  | .LINDEX => execLindex m ht cmd
  | .LRANGE => execLrange m ht cmd
  | .LSET => execLset m ht cmd
  | .LREM => execLrem m ht cmd
  | .LPOS => execLpos m ht cmd
  | .SADD => execSadd m ht cmd
  | .SREM => execSrem m ht cmd
  | .SISMEMBER => execSismember m ht cmd
  | .SMEMBERS => execSmembers m ht cmd
  | .SMISMEMBER => execSmismember m ht cmd
  | .UNKNOWN => .ok (ht, str "-ERR unrecognized command" ++ crlf)
  | .QUIT => .ok (ht, str "q")
  | .SHUTDOWN => .ok (ht, str "x")
  | .NOOP => .ok (ht, [])

end MemKey
