import MemKey.Lib.Listing
import MemKey.Theorems.Replies

/-! What the server is for: a finite map from keys to strings, hashes, lists and sets, none of the containers empty.
    A missing key counts as an empty container of whatever type a command expects. Each command leaves a store and
    gives one of the replies that it allows; only the order of an enumeration is free.

    It is the handlers' store and not an ideal one. `DECRBY` stores its argument under a missing key as it is, sums
    wrap, `MGET` checks the type of its first key alone, `HMGET` and `SMISMEMBER` of a missing key give an empty array,
    and an index outside of a list is refused. -/

namespace MemKey
open Resp Listing

/-- What a key holds. -/
inductive Content where
  | str (s : Bytes)
  | hash (h : Finmap fun _ : Bytes => Bytes)
  | list (l : List Bytes)
  | set (t : Finset Bytes)

abbrev Store := Finmap fun _ : Bytes => Content

namespace Content

def type : Content → ItemType
  | str _ => .STR_T
  | hash _ => .HASH_T
  | list _ => .LIST_T
  | set _ => .SET_T

/-! What a command reads that expects one of the types: `none` is a content of another type. -/

def asStr : Option Content → Option (Option Bytes)
  | none => some none
  | some (str s) => some (some s)
  | _ => none

def asHash : Option Content → Option (Finmap fun _ : Bytes => Bytes)
  | none => some ∅
  | some (hash h) => some h
  | _ => none

def asList : Option Content → Option (List Bytes)
  | none => some []
  | some (list l) => some l
  | _ => none

def asSet : Option Content → Option (Finset Bytes)
  | none => some ∅
  | some (set t) => some t
  | _ => none

/-! A container, or nothing if it is empty. -/

def ofHash (h : Finmap fun _ : Bytes => Bytes) : Option Content := if h = ∅ then none else some (hash h)

def ofList (l : List Bytes) : Option Content := if l = [] then none else some (list l)

def ofSet (t : Finset Bytes) : Option Content := if t = ∅ then none else some (set t)

end Content

/-- The store that a command leaves, and the replies that it may give; `none` when the server crashes. -/
abbrev Verdict := Option (Store × Set Bytes)

/-- The list without the occurrences of the value that `count` asks for: from the head, from the tail, or all. -/
def removal (count : Int) (value : Bytes) (l : List Bytes) : List Bytes :=
  if count < 0 then (l.reverse.diff (List.replicate count.natAbs value)).reverse
  else if count = 0 then l.filter (· ≠ value)
  else l.diff (List.replicate count.natAbs value)

namespace Store

/-- The store with another content for the key, or without the key. -/
def put (s : Store) (key : Bytes) : Option Content → Store
  | none => s.erase key
  | some c => s.insert key c

def reply (s : Store) (r : Scalar) : Verdict := some (s, {(Reply.scalar r).encode})

def array (s : Store) (l : List Scalar) : Verdict := some (s, {(Reply.array l).encode})

def refuse (s : Store) (line : Bytes) : Verdict := some (s, {line})

/-- A command on a content of one type. -/
def expects {α : Type} (s : Store) (view : Option α) (body : α → Verdict) : Verdict :=
  match view with
  | none => s.refuse replyErrType
  | some x => body x

/-- The write of a number. -/
def number (s : Store) (key : Bytes) (x : Int) : Verdict := reply (s.insert key (.str (intostr x))) (.int x)

/-! ### Keys -/

def del (s : Store) (argv : List Bytes) : Verdict :=
  if argv = [] then s.refuse (replyErrArgc 0 "1+")
  else
    let s' := argv.foldl (fun s key => s.erase key) s
    reply s' (.int (s.keys.card - s'.keys.card))

def exists_ (s : Store) (argv : List Bytes) : Verdict :=
  if argv = [] then s.refuse (replyErrArgc 0 "1+") else s.reply (.int (argv.countP (· ∈ s)))

def type (s : Store) : List Bytes → Verdict
  | [key] => s.reply (.bulk ((s.lookup key).elim (str "none") fun c => typeName c.type))
  | argv => s.refuse (replyErrArgc argv.length "1")

/-! ### Strings -/

def set (s : Store) : List Bytes → Verdict
  | [] => s.reply (.bulk (str "OK"))
  | [key] => reply (s.insert key (.str [])) (.bulk (str "OK"))
  | [key, value] => reply (s.insert key (.str value)) (.bulk (str "OK"))
  | argv => s.refuse (replyErrArgc argv.length "0..2")

def get (s : Store) : List Bytes → Verdict
  | [key] => s.expects (Content.asStr (s.lookup key)) fun v => s.reply (single v)
  | argv => s.refuse (replyErrArgc argv.length "1")

def mset (s : Store) (argv : List Bytes) : Verdict :=
  if argv.length ≥ 2 ∧ argv.length % 2 = 0 then
    reply ((pairs argv).foldl (fun s p => s.insert p.1 (.str p.2)) s) (.bulk (str "OK"))
  else s.refuse (replyErrArgc argv.length "2+")

/-- Only the first key may be refused; another one that holds no string crashes the server. -/
def mget (s : Store) : List Bytes → Verdict
  | [] => s.refuse (replyErrArgc 0 "1+")
  | key :: keys => s.expects (Content.asStr (s.lookup key)) fun _ => do
    s.array ((← (key :: keys).mapM fun key => Content.asStr (s.lookup key)).map cell)

def step (s : Store) (delta : Int) : List Bytes → Verdict
  | [key] => s.expects (Content.asStr (s.lookup key)) fun
    | none => s.number key delta
    | some v => if isNumber v then s.number key (wrap32 (strtoi v + delta)) else s.refuse replyErrIntid
  | argv => s.refuse (replyErrArgc argv.length "1")

/-- A missing key takes the argument as it is, and crashes the server if that is no number. -/
def stepBy (s : Store) (op : Int → Int → Int) : List Bytes → Verdict
  | [key, arg] => s.expects (Content.asStr (s.lookup key)) fun
    | none => if isNumber arg then s.number key (strtoi arg) else none
    | some v =>
      if isNumber v && isNumber arg then s.number key (wrap32 (op (strtoi v) (strtoi arg)))
      else s.refuse replyErrIntid
  | argv => s.refuse (replyErrArgc argv.length "2")

def strlen (s : Store) : List Bytes → Verdict
  | [key] => s.expects (Content.asStr (s.lookup key)) fun v => s.reply (.int (v.getD []).length)
  | argv => s.refuse (replyErrArgc argv.length "1")

/-! ### Hashes -/

def hset (s : Store) : List Bytes → Verdict
  | key :: args =>
    if args.length ≥ 2 ∧ args.length % 2 = 0 then
      s.expects (Content.asHash (s.lookup key)) fun h =>
        let h' := (pairs args).foldl (fun h p => h.insert p.1 p.2) h
        reply (s.put key (Content.ofHash h')) (.int (h'.keys.card - h.keys.card))
    else s.refuse (replyErrArgc (args.length + 1) "3+")
  | [] => s.refuse (replyErrArgc 0 "3+")

def hget (s : Store) : List Bytes → Verdict
  | [key, field] => s.expects (Content.asHash (s.lookup key)) fun h => s.reply (single (h.lookup field))
  | argv => s.refuse (replyErrArgc argv.length "2")

def hdel (s : Store) : List Bytes → Verdict
  | key :: field :: fields => s.expects (Content.asHash (s.lookup key)) fun h =>
    let h' := (field :: fields).foldl (fun h field => h.erase field) h
    reply (s.put key (Content.ofHash h')) (.int (h.keys.card - h'.keys.card))
  | argv => s.refuse (replyErrArgc argv.length "2+")

/-- `HGETALL`, `HKEYS` and `HVALS`: what `out` makes of the bindings, in some order. -/
def hbindings (s : Store) (out : Bytes × Bytes → List Bytes) : List Bytes → Verdict
  | [key] => s.expects (Content.asHash (s.lookup key)) fun h =>
    some (s, {r | ∃ l, Bindings l h ∧ r = (Reply.array ((l.flatMap out).map element)).encode})
  | argv => s.refuse (replyErrArgc argv.length "1")

def hexists (s : Store) : List Bytes → Verdict
  | [key, field] => s.expects (Content.asHash (s.lookup key)) fun h => s.reply (.int (if field ∈ h then 1 else 0))
  | argv => s.refuse (replyErrArgc argv.length "2")

def hmget (s : Store) : List Bytes → Verdict
  | key :: field :: fields => s.expects (Content.asHash (s.lookup key)) fun h =>
    s.array (if h = ∅ then [] else (field :: fields).map fun field => cell (h.lookup field))
  | argv => s.refuse (replyErrArgc argv.length "2+")

def hlen (s : Store) : List Bytes → Verdict
  | [key] => s.expects (Content.asHash (s.lookup key)) fun h => s.reply (.int h.keys.card)
  | argv => s.refuse (replyErrArgc argv.length "1")

/-! ### Lists -/

/-- The list with the value at an end. -/
def pushed (dir : ListDirection) (l : List Bytes) (value : Bytes) : List Bytes :=
  match dir with
  | .LEFT => value :: l
  | .RIGHT => l ++ [value]

/-- The list without the value at an end, and that value. -/
def popped (dir : ListDirection) (l : List Bytes) : List Bytes × Option Bytes :=
  match dir with
  | .LEFT => (l.tail, l.head?)
  | .RIGHT => (l.dropLast, l.getLast?)

def push (s : Store) (dir : ListDirection) : List Bytes → Verdict
  | key :: value :: values => s.expects (Content.asList (s.lookup key)) fun l =>
    let l' := (value :: values).foldl (pushed dir) l
    reply (s.put key (Content.ofList l')) (.int l'.length)
  | argv => s.refuse (replyErrArgc argv.length "2+")

def pop (s : Store) (dir : ListDirection) : List Bytes → Verdict
  | [key] => s.expects (Content.asList (s.lookup key)) fun l =>
    reply (s.put key (Content.ofList (popped dir l).1)) (single (popped dir l).2)
  | argv => s.refuse (replyErrArgc argv.length "1")

def llen (s : Store) : List Bytes → Verdict
  | [key] => s.expects (Content.asList (s.lookup key)) fun l => s.reply (.int l.length)
  | argv => s.refuse (replyErrArgc argv.length "1")

def lindex (s : Store) : List Bytes → Verdict
  | [key, arg] => s.expects (Content.asList (s.lookup key)) fun l =>
    let id := normId l.length (strtoi arg)
    if ¬isNumber arg then s.refuse replyErrIntid
    else if l = [] then s.reply .nil
    else if 0 ≤ id ∧ id < l.length then s.reply (single l[id.toNat]?)
    else s.refuse replyErrIntid
  | argv => s.refuse (replyErrArgc argv.length "2")

def lrange (s : Store) : List Bytes → Verdict
  | [key, bgnArg, endArg] => s.expects (Content.asList (s.lookup key)) fun l =>
    let bgn := normId l.length (strtoi bgnArg)
    let end_ := normId l.length (strtoi endArg)
    if ¬(isNumber bgnArg && isNumber endArg) then s.refuse replyErrIntid
    else if l = [] then s.array []
    else if 0 ≤ bgn ∧ bgn ≤ end_ ∧ end_ < l.length then
      s.array (((l.take (end_.toNat + 1)).drop bgn.toNat).map element)
    else s.refuse replyErrIntid
  | argv => s.refuse (replyErrArgc argv.length "3")

def lset (s : Store) : List Bytes → Verdict
  | [key, arg, value] => s.expects (Content.asList (s.lookup key)) fun l =>
    let id := normId l.length (strtoi arg)
    if ¬isNumber arg then s.refuse replyErrIntid
    else if l = [] then s.reply .nil
    else if 0 ≤ id ∧ id < l.length then reply (s.put key (Content.ofList (l.set id.toNat value))) (.bulk (str "OK"))
    else s.refuse replyErrIntid
  | argv => s.refuse (replyErrArgc argv.length "3")

def lrem (s : Store) : List Bytes → Verdict
  | [key, arg, value] => s.expects (Content.asList (s.lookup key)) fun l =>
    let l' := removal (strtoi arg) value l
    if isNumber arg then reply (s.put key (Content.ofList l')) (.int (l.length - l'.length))
    else s.refuse replyErrIntid
  | argv => s.refuse (replyErrArgc argv.length "3")

def lpos (s : Store) : List Bytes → Verdict
  | [key, value] => s.expects (Content.asList (s.lookup key)) fun l =>
    s.reply (match l.findIdx? (· = value) with
      | none => .nil
      | some i => .int i)
  | argv => s.refuse (replyErrArgc argv.length "2")

/-! ### Sets -/

def sadd (s : Store) : List Bytes → Verdict
  | key :: value :: values => s.expects (Content.asSet (s.lookup key)) fun t =>
    let t' := (value :: values).foldl (fun t value => insert value t) t
    reply (s.put key (Content.ofSet t')) (.int (t'.card - t.card))
  | argv => s.refuse (replyErrArgc argv.length "2+")

def srem (s : Store) : List Bytes → Verdict
  | key :: value :: values => s.expects (Content.asSet (s.lookup key)) fun t =>
    let t' := (value :: values).foldl (fun t value => t.erase value) t
    reply (s.put key (Content.ofSet t')) (.int (t.card - t'.card))
  | argv => s.refuse (replyErrArgc argv.length "2+")

def sismember (s : Store) : List Bytes → Verdict
  | [key, value] => s.expects (Content.asSet (s.lookup key)) fun t => s.reply (.int (if value ∈ t then 1 else 0))
  | argv => s.refuse (replyErrArgc argv.length "2")

def smembers (s : Store) : List Bytes → Verdict
  | [key] => s.expects (Content.asSet (s.lookup key)) fun t =>
    some (s, {r | ∃ l, Members l t ∧ r = (Reply.array (l.map element)).encode})
  | argv => s.refuse (replyErrArgc argv.length "1")

def smismember (s : Store) : List Bytes → Verdict
  | key :: value :: values => s.expects (Content.asSet (s.lookup key)) fun t =>
    s.array (if t = ∅ then [] else (value :: values).map fun value => .int (if value ∈ t then 1 else 0))
  | argv => s.refuse (replyErrArgc argv.length "2+")

/-! ### Commands -/

def exec (s : Store) (cmd : Command) : Verdict :=
  match cmd.type with
  | .DEL => s.del cmd.argv
  | .EXISTS => s.exists_ cmd.argv
  | .TYPE => s.type cmd.argv
  | .SET => s.set cmd.argv
  | .GET => s.get cmd.argv
  | .MSET => s.mset cmd.argv
  | .MGET => s.mget cmd.argv
  | .INCR => s.step 1 cmd.argv
  | .DECR => s.step (-1) cmd.argv
  | .INCRBY => s.stepBy (· + ·) cmd.argv
  | .DECRBY => s.stepBy (· - ·) cmd.argv
  | .STRLEN => s.strlen cmd.argv
  | .HSET => s.hset cmd.argv
  | .HGET => s.hget cmd.argv
  | .HDEL => s.hdel cmd.argv
  | .HGETALL => s.hbindings (fun p => [p.1, p.2]) cmd.argv
  | .HEXISTS => s.hexists cmd.argv
  | .HKEYS => s.hbindings (fun p => [p.1]) cmd.argv
  | .HVALS => s.hbindings (fun p => [p.2]) cmd.argv
  | .HMGET => s.hmget cmd.argv
  | .HLEN => s.hlen cmd.argv
  | .LPUSH => s.push .LEFT cmd.argv
  | .LPOP => s.pop .LEFT cmd.argv
  | .RPUSH => s.push .RIGHT cmd.argv
  | .RPOP => s.pop .RIGHT cmd.argv
  | .LLEN => s.llen cmd.argv
  | .LINDEX => s.lindex cmd.argv
  | .LRANGE => s.lrange cmd.argv
  | .LSET => s.lset cmd.argv
  | .LREM => s.lrem cmd.argv
  | .LPOS => s.lpos cmd.argv
  | .SADD => s.sadd cmd.argv
  | .SREM => s.srem cmd.argv
  | .SISMEMBER => s.sismember cmd.argv
  | .SMEMBERS => s.smembers cmd.argv
  | .SMISMEMBER => s.smismember cmd.argv
  | .UNKNOWN => s.refuse (str "-ERR unrecognized command" ++ crlf)
  | .QUIT => s.refuse (str "q")
  | .SHUTDOWN => s.refuse (str "x")
  | .NOOP => s.refuse []

end Store
end MemKey
