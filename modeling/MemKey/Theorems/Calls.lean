import MemKey.Theorems.Operations

/-! The calls of the functions of `htable.c` that a command makes, those that read as well as those that change the
    table: every handler reads first and then changes. -/

namespace MemKey
open Outcome

/-! ### Calls with their replies -/

/-- What a call replies. A type goes with what its caller does: whether it frees the string. -/
inductive Answer where
  | flag (b : Bool)
  | count (n : Int)
  | counts (ns : List Int)
  | text (s : Option Bytes)
  | popped (s : Option Bytes)
  | type (name : Bytes) (freed : Bool)
  | strings (l : Option (List Bytes))
  | range (code : Int) (l : Option (List Bytes))
  deriving DecidableEq, Repr

def replying {ρ : Type} (f : ρ → Answer) (r : HashTable Value × ρ) : HashTable Value × Answer := (r.1, f r.2)

/-- An operation with its reply. -/
def HtableOp.answer (m : IntMode) (ht : HashTable Value) : HtableOp → Except Fault (HashTable Value × Answer)
  | .set key value => (htableSet m ht key value).map (replying .flag)
  | .hset key field value => (htableHset m ht key field value).map (replying .flag)
  | .push key value dir => (htablePush m ht key value dir).map (replying .count)
  | .sadd key value => (htableSadd m ht key value).map (replying .flag)
  | .del key => (htableDel m ht key).map (replying .flag)
  | .pop key dir => (htablePop m ht key dir).map (replying .popped)
  | .hdel key field => (htableHdel m ht key field).map (replying .flag)
  | .lrem key count value => (htableLrem m ht key count value).map (replying .count)
  | .srem key value => (htableSrem m ht key value).map (replying .flag)
  | .lset key id value => (htableLset m ht key id value).map (replying .flag)

/-- The functions that only read. `guard` is `htable_type` as most handlers call it, with the type that they expect, and
    `lrange` is `htable_check_ids` with `htable_lrange` if that allows it. -/
inductive Query where
  | exists_ (key : Bytes)
  | type (key : Bytes)
  | guard (key : Bytes) (expected : String)
  | get (key : Bytes)
  | hget (key field : Bytes)
  | hgetall (key : Bytes)
  | hkeyvals (key : Bytes) (ky : Int)
  | hlen (key : Bytes)
  | llen (key : Bytes)
  | checkId (key : Bytes) (id : Int)
  | lindex (key : Bytes) (id : Int)
  | lrange (key : Bytes) (begin_ end_ : Int)
  | lpos (key value : Bytes)
  | sismember (key value : Bytes)
  | smembers (key : Bytes)
  deriving DecidableEq, Repr

def Query.answer (m : IntMode) (ht : HashTable Value) : Query → Except Fault Answer
  | .exists_ key => (htableExists m ht key).map .flag
  | .type key => (htableType m ht key).map (.type · false)
  | .guard key expected => (htableType m ht key).map fun name => .type name (isType name (str expected))
  | .get key => (htableGet m ht key).map .text
  | .hget key field => (htableHget m ht key field).map .text
  | .hgetall key => (htableHgetall m ht key).map .strings
  | .hkeyvals key ky => (htableHkeyvals m ht key ky).map .strings
  | .hlen key => (htableHlen m ht key).map .count
  | .llen key => (htableLlen m ht key).map .count
  | .checkId key id => (htableCheckId m ht key id).map fun r => .counts [r.1, r.2]
  | .lindex key id => (htableLindex m ht key id).map .text
  | .lrange key begin_ end_ => do
    let r ← htableCheckIds m ht key begin_ end_
    if r.1 > 0 then (htableLrange m ht key r.2.1 r.2.2).map (.range r.1) else .ok (.range r.1 none)
  | .lpos key value => (htableLpos m ht key value).map .count
  | .sismember key value => (htableSismember m ht key value).map .flag
  | .smembers key => (htableSmembers m ht key).map .strings

inductive Call where
  | query (q : Query)
  | change (op : HtableOp)

def Call.answer (m : IntMode) (ht : HashTable Value) : Call → Except Fault (HashTable Value × Answer)
  | query q => (q.answer m ht).map (ht, ·)
  | change op => op.answer m ht

def Call.ops : Call → List HtableOp
  | query _ => []
  | change op => [op]

/-- The operations among the calls. -/
def changes (cs : List Call) : List HtableOp := cs.flatMap Call.ops

/-- The calls one after another. -/
def Call.answers (m : IntMode) : HashTable Value → List Call → Except Fault (HashTable Value × List Answer)
  | ht, [] => .ok (ht, [])
  | ht, c :: cs => do
    let r ← c.answer m ht
    let rs ← Call.answers m r.1 cs
    .ok (rs.1, r.2 :: rs.2)

/-! ### Commands -/

/-- The reads of a handler behind the guard of `typed`, which is one itself. -/
def typedQueries (m : IntMode) (ht : Keyspace) (key : Bytes) (expected : String) (qs : List Query) : List Query :=
  .guard key expected ::
    match htableType m ht key with
    | .ok type => if isType type (str expected) then qs else []
    | .error _ => []

/-- The reads of `exec_hmget` and `exec_smismember` if the key is there. -/
def foundQueries (m : IntMode) (ht : Keyspace) (key : Bytes) (qs : List Query) : List Query :=
  .exists_ key ::
    match htableExists m ht key with
    | .ok true => qs
    | _ => []

/-- The reads of `exec_lindex`. -/
def indexQueries (m : IntMode) (ht : Keyspace) (key : Bytes) (id : Int) : List Query :=
  .checkId key id ::
    match htableCheckId m ht key id with
    | .ok (code, id) => if code > 0 then [.lindex key id] else []
    | .error _ => []

/-- The reads that a command makes. -/
def Command.queries (m : IntMode) (ht : Keyspace) (cmd : Command) : List Query :=
  match cmd.type, cmd.argv with
  | .EXISTS, keys => keys.map .exists_
  | .TYPE, [key] => [.type key]
  | .GET, [key] => typedQueries m ht key "string" [.get key]
  | .MGET, key :: keys => typedQueries m ht key "string" ((key :: keys).map .get)
  | .INCR, [key] => typedQueries m ht key "string" [.get key]
  | .DECR, [key] => typedQueries m ht key "string" [.get key]
  | .INCRBY, [key, _] => typedQueries m ht key "string" [.get key]
  | .DECRBY, [key, _] => typedQueries m ht key "string" [.get key]
  | .STRLEN, [key] => typedQueries m ht key "string" [.get key]
  | .HSET, key :: args => if args.length ≥ 2 ∧ args.length % 2 = 0 then typedQueries m ht key "hash" [] else []
  | .HGET, [key, field] => typedQueries m ht key "hash" [.hget key field]
  | .HDEL, key :: _ :: _ => typedQueries m ht key "hash" []
  | .HGETALL, [key] => typedQueries m ht key "hash" [.hgetall key]
  | .HEXISTS, [key, field] => typedQueries m ht key "hash" [.hget key field]
  | .HKEYS, [key] => typedQueries m ht key "hash" [.hkeyvals key 1]
  | .HVALS, [key] => typedQueries m ht key "hash" [.hkeyvals key 0]
  | .HMGET, key :: field :: fields =>
    typedQueries m ht key "hash" (foundQueries m ht key ((field :: fields).map (.hget key)))
  | .HLEN, [key] => typedQueries m ht key "hash" [.hlen key]
  | .LPUSH, key :: _ :: _ => typedQueries m ht key "list" []
  | .RPUSH, key :: _ :: _ => typedQueries m ht key "list" []
  | .LPOP, [key] => typedQueries m ht key "list" []
  | .RPOP, [key] => typedQueries m ht key "list" []
  | .LLEN, [key] => typedQueries m ht key "list" [.llen key]
  | .LINDEX, [key, arg] => typedQueries m ht key "list" (if isNumber arg then indexQueries m ht key (strtoi arg) else [])
  | .LRANGE, [key, bgnArg, endArg] =>
    typedQueries m ht key "list"
      (if isNumber bgnArg && isNumber endArg then [.lrange key (strtoi bgnArg) (strtoi endArg)] else [])
  | .LSET, [key, arg, _] => typedQueries m ht key "list" (if isNumber arg then [.checkId key (strtoi arg)] else [])
  | .LREM, [key, _, _] => typedQueries m ht key "list" []
  | .LPOS, [key, value] => typedQueries m ht key "list" [.lpos key value]
  | .SADD, key :: _ :: _ => typedQueries m ht key "set" []
  | .SREM, key :: _ :: _ => typedQueries m ht key "set" []
  | .SISMEMBER, [key, value] => typedQueries m ht key "set" [.sismember key value]
  | .SMEMBERS, [key] => typedQueries m ht key "set" [.smembers key]
  | .SMISMEMBER, key :: value :: values =>
    typedQueries m ht key "set" (foundQueries m ht key ((value :: values).map (.sismember key)))
  | _, _ => []

/-- The calls that a command makes: the operations change what the reads have read. -/
def Command.calls (m : IntMode) (ht : Keyspace) (cmd : Command) : List Call :=
  (cmd.queries m ht).map .query ++ (cmd.ops m ht).map .change

/-- The calls of commands one after another. -/
def calls (m : IntMode) : Keyspace → List Command → List Call
  | _, [] => []
  | ht, cmd :: cmds =>
    cmd.calls m ht ++
      match serve m ht cmd with
      | .ok ht' => calls m ht' cmds
      | .error _ => []

/-- Whenever the handler returns, the reads have replied. -/
def Asks (m : IntMode) (ht : Keyspace) (qs : List Query) (x : Exec) : Prop :=
  Ensures x (fun _ => ∀ q ∈ qs, ∃ r, q.answer m ht = .ok r) fun _ => True

section Calls
variable {m : IntMode} {ht ht' : Keyspace} {key : Bytes} {cmd : Command} {expected : String} {q : Query} {qs : List Query}
  {x : Exec} {ρ : Type}

/-! ### Reads of a command -/

theorem asks_nil : Asks m ht [] x := Ensures.trivial.post fun _ _ _ hq => absurd hq List.not_mem_nil

theorem asks_reply {r : Answer} (h : q.answer m ht = .ok r) : Asks m ht [q] x :=
  Ensures.trivial.post fun _ _ _ hq => ⟨r, (List.mem_singleton.mp hq).symm ▸ h⟩

/-- A read whose reply the rest of the handler works on. -/
theorem Asks.read {read : Except Fault ρ} {f : ρ → Answer} {k : ρ → Exec} (hq : q.answer m ht = read.map f)
    (h : ∀ r, read = .ok r → Asks m ht qs (k r)) : Asks m ht (q :: qs) (read >>= k) := by
  refine Ensures.trivial.bind fun r hr _ => (h r hr).post fun _ hrest q' hq' => ?_
  rcases List.mem_cons.mp hq' with rfl | hq'
  · exact ⟨f r, by rw [hq, hr]; rfl⟩
  · exact hrest q' hq'

/-- A handler with one read. -/
theorem asks_one {read : Except Fault ρ} {f : ρ → Answer} {k : ρ → Exec} (hq : q.answer m ht = read.map f) :
    Asks m ht [q] (read >>= k) := .read hq fun _ _ => asks_nil

/-- A read for each argument in turn. -/
theorem asks_mapM {α : Type} {read : α → Except Fault ρ} {g : α → Query} {k : List ρ → Exec} {args : List α}
    (hq : ∀ a r, read a = .ok r → ∃ r', (g a).answer m ht = .ok r') : Asks m ht (args.map g) (args.mapM read >>= k) := by
  have hall : Ensures (args.mapM read) (List.Forall₂ (fun a _ => ∃ r', (g a).answer m ht = .ok r') args) fun _ => True :=
    Ensures.mapM fun a _ => Ensures.trivial.result fun r hr => hq a r hr
  refine hall.bind fun _ _ hforall => Ensures.trivial.post fun _ _ q hmem => ?_
  obtain ⟨a, ha, rfl⟩ := List.mem_map.mp hmem
  obtain ⟨i, hi, rfl⟩ := List.getElem_of_mem ha
  exact (List.forall₂_iff_get.mp hforall).2 i hi (hforall.length_eq ▸ hi)

theorem Asks.typed (h : Asks m ht qs x) : Asks m ht (typedQueries m ht key expected qs) (typed m ht key expected x) := by
  refine .read rfl fun type htype => ?_
  rw [htype]
  dsimp only
  split
  · exact h
  · exact asks_nil

theorem Asks.found (hx : Asks m ht qs x) {y : Exec} :
    Asks m ht (foundQueries m ht key qs) (do if ← htableExists m ht key then x else y) := by
  refine .read rfl fun b hb => ?_
  rw [hb]
  cases b with
  | true => exact hx
  | false => exact asks_nil

theorem oksLoop_asks {oks : Int} {keys : List Bytes} : Ensures
    (oksLoop (fun ht key => do .ok (ht, ← htableExists m ht key)) ht oks keys)
    (fun _ => ∀ q ∈ keys.map Query.exists_, ∃ r, q.answer m ht = .ok r) fun _ => True := by
  induction keys generalizing oks with
  | nil => exact fun _ hq => absurd hq List.not_mem_nil
  | cons key keys ih =>
    rw [oksLoop]
    cases hkey : htableExists m ht key with
    | error e => trivial
    | ok b =>
      refine ih.post fun _ hrest q hq => ?_
      rcases List.mem_cons.mp hq with rfl | hq
      · exact ⟨.flag b, by rw [Query.answer, hkey]; rfl⟩
      · exact hrest q hq

theorem execExists_asks (argv : List Bytes) : Asks m ht (argv.map .exists_) (execExists m ht ⟨.EXISTS, argv⟩) := by
  cases argv with
  | nil => exact asks_nil
  | cons key keys => exact oksLoop_asks.bind fun _ _ h => h

theorem execLindex_asks (key arg : Bytes) :
    Asks m ht (typedQueries m ht key "list" (if isNumber arg then indexQueries m ht key (strtoi arg) else []))
      (execLindex m ht ⟨.LINDEX, [key, arg]⟩) := by
  refine Asks.typed ?_
  split
  · refine .read rfl fun r hr => ?_
    rw [hr]
    dsimp only
    by_cases hcode : r.1 > 0
    · rw [if_pos hcode, if_neg (by omega : ¬r.1 = 0), if_pos hcode]
      exact asks_one rfl
    · rw [if_neg hcode]
      exact asks_nil
  · exact asks_nil

theorem execLrange_asks (key bgnArg endArg : Bytes) :
    Asks m ht (typedQueries m ht key "list"
      (if isNumber bgnArg && isNumber endArg then [.lrange key (strtoi bgnArg) (strtoi endArg)] else []))
      (execLrange m ht ⟨.LRANGE, [key, bgnArg, endArg]⟩) := by
  refine Asks.typed ?_
  split
  · refine Ensures.trivial.bind fun r hr _ => ?_
    dsimp only
    by_cases hcode : r.1 > 0
    · rw [if_neg (by omega : ¬r.1 = 0), if_pos hcode]
      refine Ensures.trivial.bind fun l hl _ => asks_reply (r := .range r.1 l) ?_
      rw [Query.answer, hr, ok_bind, if_pos hcode, hl]
      rfl
    · refine asks_reply (r := .range r.1 none) ?_
      rw [Query.answer, hr, ok_bind, if_neg hcode]
  · exact asks_nil

theorem execLset_asks (key arg value : Bytes) :
    Asks m ht (typedQueries m ht key "list" (if isNumber arg then [.checkId key (strtoi arg)] else []))
      (execLset m ht ⟨.LSET, [key, arg, value]⟩) := by
  refine Asks.typed ?_
  split
  · exact asks_one rfl
  · exact asks_nil

theorem execHset_asks (argv : List Bytes) :
    Asks m ht (Command.queries m ht ⟨.HSET, argv⟩) (execHset m ht ⟨.HSET, argv⟩) := by
  cases argv with
  | nil => exact asks_nil
  | cons key args =>
    have harity : (key :: args).length ≥ 3 ∧ (key :: args).length % 2 = 1 ↔ args.length ≥ 2 ∧ args.length % 2 = 0 := by
      rw [List.length_cons]
      omega
    by_cases hargs : args.length ≥ 2 ∧ args.length % 2 = 0
    · rw [show Command.queries m ht ⟨.HSET, key :: args⟩ = _ from if_pos hargs,
        show execHset m ht ⟨.HSET, key :: args⟩ = _ from if_pos (harity.mpr hargs)]
      exact Asks.typed asks_nil
    · rw [show Command.queries m ht ⟨.HSET, key :: args⟩ = _ from if_neg hargs]
      exact asks_nil

theorem interpret_asks (cmd : Command) : Asks m ht (cmd.queries m ht) (interpret m ht cmd) := by
  obtain ⟨type, argv⟩ := cmd
  cases type with
  | SET | DEL | MSET | UNKNOWN | QUIT | SHUTDOWN | NOOP => exact asks_nil
  | EXISTS => exact execExists_asks argv
  | HSET => exact execHset_asks argv
  | TYPE =>
    match argv with
    | [] | _ :: _ :: _ => exact asks_nil
    | [key] => exact asks_one rfl
  | GET | INCR | DECR | STRLEN =>
    match argv with
    | [] | _ :: _ :: _ => exact asks_nil
    | [key] => exact Asks.typed (asks_one rfl)
  | INCRBY | DECRBY =>
    match argv with
    | [] | [_] | _ :: _ :: _ :: _ => exact asks_nil
    | [key, arg] => exact Asks.typed (asks_one rfl)
  | MGET =>
    match argv with
    | [] => exact asks_nil
    | key :: keys => exact Asks.typed (asks_mapM fun key r hr => ⟨.text r, by rw [Query.answer, hr]; rfl⟩)
  | HGET | HEXISTS =>
    match argv with
    | [] | [_] | _ :: _ :: _ :: _ => exact asks_nil
    | [key, field] => exact Asks.typed (asks_one rfl)
  | HDEL | LPUSH | RPUSH | SADD | SREM =>
    match argv with
    | [] | [_] => exact asks_nil
    | key :: _ :: _ => exact Asks.typed asks_nil
  | HGETALL | HKEYS | HVALS | HLEN | LLEN | SMEMBERS =>
    match argv with
    | [] | _ :: _ :: _ => exact asks_nil
    | [key] => exact Asks.typed (asks_one rfl)
  | HMGET =>
    match argv with
    | [] | [_] => exact asks_nil
    | key :: field :: fields =>
      exact Asks.typed (.found (asks_mapM fun field r hr => ⟨.text r, by rw [Query.answer, hr]; rfl⟩))
  | LPOP | RPOP =>
    match argv with
    | [] | _ :: _ :: _ => exact asks_nil
    | [key] => exact Asks.typed asks_nil
  | LINDEX =>
    match argv with
    | [] | [_] | _ :: _ :: _ :: _ => exact asks_nil
    | [key, arg] => exact execLindex_asks key arg
  | LRANGE =>
    match argv with
    | [] | [_] | [_, _] | _ :: _ :: _ :: _ :: _ => exact asks_nil
    | [key, bgnArg, endArg] => exact execLrange_asks key bgnArg endArg
  | LSET =>
    match argv with
    | [] | [_] | [_, _] | _ :: _ :: _ :: _ :: _ => exact asks_nil
    | [key, arg, value] => exact execLset_asks key arg value
  | LREM =>
    match argv with
    | [] | [_] | [_, _] | _ :: _ :: _ :: _ :: _ => exact asks_nil
    | [key, arg, value] => exact Asks.typed asks_nil
  | LPOS | SISMEMBER =>
    match argv with
    | [] | [_] | _ :: _ :: _ :: _ => exact asks_nil
    | [key, value] => exact Asks.typed (asks_one rfl)
  | SMISMEMBER =>
    match argv with
    | [] | [_] => exact asks_nil
    | key :: value :: values =>
      refine Asks.typed (.found (asks_mapM fun value r hr => ?_))
      obtain ⟨b, hb, -⟩ := bind_eq_ok.mp hr
      exact ⟨.flag b, by rw [Query.answer, hb]; rfl⟩

/-! ### Runs -/

theorem Call.answers_append {cs ds : List Call} {rs rs' : List Answer} {ht₁ : Keyspace}
    (h : Call.answers m ht cs = .ok (ht₁, rs)) (h' : Call.answers m ht₁ ds = .ok (ht', rs')) : Call.answers m ht (cs ++ ds) = .ok (ht', rs ++ rs') := by
  induction cs generalizing ht rs with
  | nil =>
    cases h
    exact h'
  | cons c cs ih =>
    obtain ⟨⟨ht₂, r⟩, hc, h⟩ := bind_eq_ok.mp h
    obtain ⟨⟨t, rs₁⟩, hcs, heq⟩ := bind_eq_ok.mp h
    cases heq
    rw [List.cons_append, Call.answers, hc, ok_bind, ih hcs]
    rfl

theorem exists_replies (h : ∀ q ∈ qs, ∃ r, q.answer m ht = .ok r) :
    ∃ rs, Call.answers m ht (qs.map .query) = .ok (ht, rs) := by
  induction qs with
  | nil => exact ⟨[], rfl⟩
  | cons q qs ih =>
    obtain ⟨r, hr⟩ := h q List.mem_cons_self
    obtain ⟨rs, hrs⟩ := ih fun q' hq' => h q' (List.mem_cons_of_mem q hq')
    refine ⟨r :: rs, ?_⟩
    rw [List.map_cons, Call.answers, Call.answer, hr, Except.map, ok_bind, hrs]
    rfl

theorem HtableOp.exists_answer {op : HtableOp} (h : op.step m ht = .ok ht') : ∃ r, op.answer m ht = .ok (ht', r) := by
  cases op with
  | set | hset | push | sadd | del | pop | hdel | lrem | srem | lset =>
    obtain ⟨⟨t, b⟩, hop, heq⟩ := bind_eq_ok.mp h
    cases heq
    exact ⟨_, congrArg (Except.map (replying _)) hop⟩

theorem HtableOp.answer_step {op : HtableOp} {r : Answer} (h : op.answer m ht = .ok (ht', r)) : op.step m ht = .ok ht' := by
  cases op with
  | set | hset | push | sadd | del | pop | hdel | lrem | srem | lset =>
    obtain ⟨⟨t, b⟩, hop, heq⟩ := map_eq_ok.mp h
    cases heq
    rw [HtableOp.step, hop]
    rfl

theorem Call.exists_answers {ops : List HtableOp} (h : Runs.run (HtableOp.step m) ht ops = .ok ht') :
    ∃ rs, Call.answers m ht (ops.map .change) = .ok (ht', rs) := by
  induction ops generalizing ht with
  | nil =>
    cases h
    exact ⟨[], rfl⟩
  | cons op ops ih =>
    obtain ⟨ht₁, hstep, hrest⟩ := Runs.run_cons_eq_ok.mp h
    obtain ⟨r, hr⟩ := HtableOp.exists_answer hstep
    obtain ⟨rs, hrs⟩ := ih hrest
    refine ⟨r :: rs, ?_⟩
    rw [List.map_cons, Call.answers, Call.answer, hr, ok_bind, hrs]
    rfl

/-- A command that returns has made its calls. -/
theorem serve_calls (h : serve m ht cmd = .ok ht') : ∃ rs, Call.answers m ht (cmd.calls m ht) = .ok (ht', rs) := by
  obtain ⟨⟨t, reply⟩, hrun, heq⟩ := bind_eq_ok.mp h
  cases heq
  obtain ⟨rs, hrs⟩ := exists_replies ((interpret_asks cmd).of_ok hrun)
  obtain ⟨rs', hrs'⟩ := Call.exists_answers (interpret_ops hrun)
  exact ⟨rs ++ rs', Call.answers_append hrs hrs'⟩

theorem calls_cons {cmds : List Command} (h : serve m ht cmd = .ok ht') :
    calls m ht (cmd :: cmds) = cmd.calls m ht ++ calls m ht' cmds := by
  rw [calls, h]

theorem run_calls {cmds : List Command} (h : Runs.run (serve m) ht cmds = .ok ht') :
    ∃ rs, Call.answers m ht (calls m ht cmds) = .ok (ht', rs) := by
  induction cmds generalizing ht with
  | nil =>
    cases h
    exact ⟨[], rfl⟩
  | cons cmd cmds ih =>
    obtain ⟨ht₁, hserve, hrest⟩ := Runs.run_cons_eq_ok.mp h
    obtain ⟨rs, hrs⟩ := serve_calls hserve
    obtain ⟨rs', hrs'⟩ := ih hrest
    rw [calls_cons hserve]
    exact ⟨rs ++ rs', Call.answers_append hrs hrs'⟩

theorem changes_calls (cmd : Command) (m : IntMode) (ht : Keyspace) : changes (cmd.calls m ht) = cmd.ops m ht := by
  simp [changes, Command.calls, Call.ops, List.flatMap_append, List.flatMap_map]

/-- What the changes of calls meet, those of the first one meet, and then those of the rest. -/
theorem along_changes_cons {c : Call} {cs : List Call} {r : Answer} {P : Keyspace → HtableOp → Prop}
    (hc : c.answer m ht = .ok (ht', r)) (ha : Runs.Along (HtableOp.step m) P ht (changes (c :: cs))) :
    Runs.Along (HtableOp.step m) P ht c.ops ∧ Runs.Along (HtableOp.step m) P ht' (changes cs) := by
  cases c with
  | query q =>
    obtain ⟨r, -, heq⟩ := map_eq_ok.mp hc
    cases heq
    exact ⟨trivial, ha⟩
  | change op => exact ⟨⟨ha.1, fun _ _ => trivial⟩, ha.2 ht' (HtableOp.answer_step hc)⟩

/-- What every command meets, every change meets. -/
theorem along_changes {P : Keyspace → HtableOp → Prop} {cmds : List Command} (h : Runs.run (serve m) ht cmds = .ok ht')
    (ha : Runs.Along (serve m) (Command.Meets m P) ht cmds) :
    Runs.Along (HtableOp.step m) P ht (changes (calls m ht cmds)) := by
  induction cmds generalizing ht with
  | nil => trivial
  | cons cmd cmds ih =>
    obtain ⟨ht₁, hserve, hrest⟩ := Runs.run_cons_eq_ok.mp h
    rw [calls_cons hserve, changes, List.flatMap_append]
    change Runs.Along (HtableOp.step m) P ht (changes (cmd.calls m ht) ++ changes (calls m ht₁ cmds))
    rw [changes_calls]
    refine Runs.along_append ha.1 fun ht₂ hops => ?_
    cases (serve_ops hserve).symm.trans hops
    exact ih hrest (ha.2 ht₁ hserve)

end Calls

end MemKey
