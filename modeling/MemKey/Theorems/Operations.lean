import MemKey.Theorems.Interpret

/-! Commands as operations on the table: which ones a command performs, one after another. What the operations
    keep, commands keep; here it is the types of the keys. -/

namespace MemKey
open Outcome

/-- The operations of a handler behind the guard of `typed`. -/
def guarded (m : IntMode) (ht : Keyspace) (key : Bytes) (expected : String) (ops : List HtableOp) : List HtableOp :=
  match htableType m ht key with
  | .ok type => if isType type (str expected) then ops else []
  | .error _ => []

/-- The write of `exec_incr` and `exec_decr`. -/
def stepOps (m : IntMode) (ht : Keyspace) (key : Bytes) (delta : Int) : List HtableOp :=
  match htableGet m ht key with
  | .ok none => [.set key (intostr delta)]
  | .ok (some res) => if isNumber res then [.set key (intostr (wrap32 (strtoi res + delta)))] else []
  | .error _ => []

/-- The write of `exec_incrby` and `exec_decrby`. -/
def stepByOps (m : IntMode) (ht : Keyspace) (key arg : Bytes) (op : Int → Int → Int) : List HtableOp :=
  match htableGet m ht key with
  | .ok none => if isNumber arg then [.set key (intostr (strtoi arg))] else []
  | .ok (some res) =>
    if isNumber res && isNumber arg then [.set key (intostr (wrap32 (op (strtoi res) (strtoi arg))))] else []
  | .error _ => []

/-- The write of `exec_lset`. -/
def lsetOps (m : IntMode) (ht : Keyspace) (key arg value : Bytes) : List HtableOp :=
  match htableCheckId m ht key (strtoi arg) with
  | .ok (code, id) => if isNumber arg ∧ code ≠ 0 then [.lset key id value] else []
  | .error _ => []

/-- The operations that a command performs. -/
def Command.ops (m : IntMode) (ht : Keyspace) (cmd : Command) : List HtableOp :=
  match cmd.type, cmd.argv with
  | .DEL, keys => keys.map .del
  | .SET, [key] => [.set key []]
  | .SET, [key, value] => [.set key value]
  | .MSET, args => if args.length ≥ 2 ∧ args.length % 2 = 0 then (pairs args).map fun p => .set p.1 p.2 else []
  | .INCR, [key] => guarded m ht key "string" (stepOps m ht key 1)
  | .DECR, [key] => guarded m ht key "string" (stepOps m ht key (-1))
  | .INCRBY, [key, arg] => guarded m ht key "string" (stepByOps m ht key arg (· + ·))
  | .DECRBY, [key, arg] => guarded m ht key "string" (stepByOps m ht key arg (· - ·))
  | .HSET, key :: args =>
    if args.length ≥ 2 ∧ args.length % 2 = 0 then
      guarded m ht key "hash" ((pairs args).map fun p => .hset key p.1 p.2)
    else []
  | .HDEL, key :: fields => guarded m ht key "hash" (fields.map (.hdel key))
  | .LPUSH, key :: values => guarded m ht key "list" (values.map (.push key · .LEFT))
  | .RPUSH, key :: values => guarded m ht key "list" (values.map (.push key · .RIGHT))
  | .LPOP, [key] => guarded m ht key "list" [.pop key .LEFT]
  | .RPOP, [key] => guarded m ht key "list" [.pop key .RIGHT]
  | .LSET, [key, arg, value] => guarded m ht key "list" (lsetOps m ht key arg value)
  | .LREM, [key, arg, value] =>
    guarded m ht key "list" (if isNumber arg then [.lrem key (strtoi arg) value] else [])
  | .SADD, key :: values => guarded m ht key "set" (values.map (.sadd key))
  | .SREM, key :: values => guarded m ht key "set" (values.map (.srem key))
  | _, _ => []

/-- Whenever the handler returns, it has performed the operations. -/
def Performs (m : IntMode) (ht : Keyspace) (ops : List HtableOp) (x : Exec) : Prop :=
  Ensures x (fun r => Runs.run (HtableOp.step m) ht ops = .ok r.1) fun _ => True

section Operations
variable {m : IntMode} {ht ht' : Keyspace} {key : Bytes} {cmd : Command} {expected : String} {ops : List HtableOp}
  {ρ : Type}

theorem performs_none (reply : Bytes) : Performs m ht [] (.ok (ht, reply)) := rfl

theorem guarded_nil : guarded m ht key expected [] = [] := by
  unfold guarded
  split
  · exact ite_self _
  · rfl

theorem mem_guarded {op : HtableOp} (h : op ∈ guarded m ht key expected ops) :
    op ∈ ops ∧ ∃ type, htableType m ht key = .ok type ∧ isType type (str expected) = true := by
  unfold guarded at h
  split at h
  · split at h
    · exact ⟨h, _, ‹_›, ‹_›⟩
    · cases h
  · cases h

theorem Performs.typed {body : Exec} (h : Performs m ht ops body) :
    Performs m ht (guarded m ht key expected ops) (typed m ht key expected body) := by
  unfold MemKey.typed guarded
  cases htableType m ht key with
  | error e => trivial
  | ok type =>
    dsimp only [ok_bind]
    split
    · exact h
    · exact performs_none _

theorem typed_leaves {body : Exec} (h : Performs m ht [] body) : Performs m ht [] (typed m ht key expected body) := by
  have htyped : Performs m ht (guarded m ht key expected []) (typed m ht key expected body) := h.typed
  rwa [guarded_nil] at htyped

/-! ### Reads -/

/-- A handler that only reads. -/
theorem leaves (read : Except Fault ρ) (reply : ρ → Bytes) : Performs m ht [] (do .ok (ht, reply (← read))) :=
  Ensures.trivial.bind fun r _ _ => performs_none (reply r)

theorem execExists_leaves : Performs m ht [] (execExists m ht cmd) := by
  refine .ite (fun _ => ?_) fun _ => performs_none _
  have hloop (oks : Int) (keys : List Bytes) :
      Ensures (oksLoop (fun ht key => do .ok (ht, ← htableExists m ht key)) ht oks keys) (fun r => r.1 = ht)
        (fun _ => True) := by
    induction keys generalizing oks with
    | nil => rfl
    | cons key keys ih =>
      rw [oksLoop]
      cases htableExists m ht key with
      | error e => trivial
      | ok b => exact ih _
  exact (hloop 0 cmd.argv).bind fun r _ hr => hr ▸ performs_none _

theorem execType_leaves : Performs m ht [] (execType m ht cmd) := by
  unfold execType
  split
  · exact leaves _ _
  · exact performs_none _

theorem execGet_leaves : Performs m ht [] (execGet m ht cmd) := by
  unfold execGet
  split
  · exact typed_leaves (leaves _ _)
  · exact performs_none _

theorem execMget_leaves : Performs m ht [] (execMget m ht cmd) := by
  unfold execMget
  split
  · exact typed_leaves (leaves _ _)
  · exact performs_none _

theorem execStrlen_leaves : Performs m ht [] (execStrlen m ht cmd) := by
  unfold execStrlen
  split
  · refine typed_leaves (Ensures.trivial.bind fun res _ _ => ?_)
    cases res with
    | none => exact performs_none _
    | some res => exact performs_none _
  · exact performs_none _

theorem execHget_leaves : Performs m ht [] (execHget m ht cmd) := by
  unfold execHget
  split
  · exact typed_leaves (leaves _ _)
  · exact performs_none _

theorem execHgetall_leaves : Performs m ht [] (execHgetall m ht cmd) := by
  unfold execHgetall
  split
  · exact typed_leaves (leaves _ _)
  · exact performs_none _

theorem execHexists_leaves : Performs m ht [] (execHexists m ht cmd) := by
  unfold execHexists
  split
  · exact typed_leaves (Ensures.trivial.bind fun _ _ _ => performs_none _)
  · exact performs_none _

theorem execHkeyvals_leaves (ky : Int) : Performs m ht [] (execHkeyvals m ht cmd ky) := by
  unfold execHkeyvals
  split
  · exact typed_leaves (leaves _ _)
  · exact performs_none _

theorem execHmget_leaves : Performs m ht [] (execHmget m ht cmd) := by
  unfold execHmget
  split
  · refine typed_leaves (Ensures.trivial.bind fun found _ _ => .ite (fun _ => ?_) fun _ => performs_none _)
    exact leaves _ _
  · exact performs_none _

theorem execHlen_leaves : Performs m ht [] (execHlen m ht cmd) := by
  unfold execHlen
  split
  · exact typed_leaves (leaves _ _)
  · exact performs_none _

theorem execLlen_leaves : Performs m ht [] (execLlen m ht cmd) := by
  unfold execLlen
  split
  · exact typed_leaves (leaves _ _)
  · exact performs_none _

theorem execLindex_leaves : Performs m ht [] (execLindex m ht cmd) := by
  unfold execLindex
  split
  · refine typed_leaves (.ite (fun _ => Ensures.trivial.bind fun (code, id) _ _ => ?_) fun _ => performs_none _)
    exact .ite (fun _ => performs_none _) fun _ => .ite (fun _ => leaves _ _) fun _ => performs_none _
  · exact performs_none _

theorem execLrange_leaves : Performs m ht [] (execLrange m ht cmd) := by
  unfold execLrange
  split
  · refine typed_leaves (.ite (fun _ => Ensures.trivial.bind fun (code, bgn, end_) _ _ => ?_) fun _ => performs_none _)
    exact .ite (fun _ => performs_none _) fun _ => .ite (fun _ => leaves _ _) fun _ => performs_none _
  · exact performs_none _

theorem execLpos_leaves : Performs m ht [] (execLpos m ht cmd) := by
  unfold execLpos
  split
  · exact typed_leaves (Ensures.trivial.bind fun _ _ _ => performs_none _)
  · exact performs_none _

theorem execSismember_leaves : Performs m ht [] (execSismember m ht cmd) := by
  unfold execSismember
  split
  · exact typed_leaves (Ensures.trivial.bind fun _ _ _ => performs_none _)
  · exact performs_none _

theorem execSmembers_leaves : Performs m ht [] (execSmembers m ht cmd) := by
  unfold execSmembers
  split
  · exact typed_leaves (leaves _ _)
  · exact performs_none _

theorem execSmismember_leaves : Performs m ht [] (execSmismember m ht cmd) := by
  unfold execSmismember
  split
  · refine typed_leaves (Ensures.trivial.bind fun found _ _ => .ite (fun _ => ?_) fun _ => performs_none _)
    exact leaves _ _
  · exact performs_none _

/-! ### Writes -/

/-- A handler that performs one operation. -/
theorem performs_one {o : HtableOp} {x : Except Fault (Keyspace × ρ)} (hx : o.step m ht = do .ok (← x).1)
    (reply : ρ → Bytes) : Performs m ht [o] (do
      let (ht, r) ← x
      .ok (ht, reply r)) := by
  refine Ensures.trivial.bind fun (ht', r) h _ => ?_
  change Runs.run (HtableOp.step m) ht [o] = .ok ht'
  rw [Runs.run_one, hx, h]
  rfl

theorem oksLoop_performs {α : Type} {f : Keyspace → α → Except Fault (Keyspace × Bool)} {op : α → HtableOp}
    (hf : ∀ ht a, (op a).step m ht = do .ok (← f ht a).1) (oks : Int) (args : List α) :
    Ensures (oksLoop f ht oks args) (fun r => Runs.run (HtableOp.step m) ht (args.map op) = .ok r.1)
      (fun _ => True) := by
  induction args generalizing ht oks with
  | nil => rfl
  | cons a args ih =>
    refine Ensures.trivial.bind fun (ht₁, ok) h _ => (ih _).post fun r hr => ?_
    rw [List.map_cons, Runs.run_cons_eq_ok]
    exact ⟨ht₁, by rw [hf, h]; rfl, hr⟩

theorem pushLoop_performs {dir : ListDirection} (len : Int) (args : List Bytes) :
    Ensures (pushLoop m dir key ht len args)
      (fun r => Runs.run (HtableOp.step m) ht (args.map (.push key · dir)) = .ok r.1) (fun _ => True) := by
  induction args generalizing ht len with
  | nil => rfl
  | cons a args ih =>
    refine Ensures.trivial.bind fun (ht₁, _) h _ => (ih _).post fun r hr => ?_
    rw [List.map_cons, Runs.run_cons_eq_ok]
    exact ⟨ht₁, by rw [HtableOp.step, h]; rfl, hr⟩

/-- A handler that performs an operation for each argument in turn. -/
theorem performs_oks {α : Type} {f : Keyspace → α → Except Fault (Keyspace × Bool)} {op : α → HtableOp}
    (hf : ∀ ht a, (op a).step m ht = do .ok (← f ht a).1) (args : List α) (reply : Int → Bytes) :
    Performs m ht (args.map op) (do
      let (ht, oks) ← oksLoop f ht 0 args
      .ok (ht, reply oks)) :=
  (oksLoop_performs hf 0 args).bind fun _ _ h => h

theorem execDel_performs (argv : List Bytes) : Performs m ht (argv.map .del) (execDel m ht ⟨.DEL, argv⟩) := by
  cases argv with
  | nil => exact performs_none _
  | cons key keys => exact performs_oks (fun _ _ => rfl) (key :: keys) replyInteger

theorem execSet_performs (argv : List Bytes) :
    Performs m ht (Command.ops m ht ⟨.SET, argv⟩) (execSet m ht ⟨.SET, argv⟩) := by
  match argv with
  | [] => exact performs_none _
  | [key] => exact performs_one (o := .set key []) rfl fun _ => _
  | [key, value] => exact performs_one (o := .set key value) rfl fun _ => _
  | _ :: _ :: _ :: _ => exact performs_none _

theorem execMset_performs (argv : List Bytes) :
    Performs m ht (Command.ops m ht ⟨.MSET, argv⟩) (execMset m ht ⟨.MSET, argv⟩) := by
  by_cases harity : argv.length ≥ 2 ∧ argv.length % 2 = 0
  · rw [show Command.ops m ht ⟨.MSET, argv⟩ = _ from if_pos harity, show execMset m ht ⟨.MSET, argv⟩ = _ from if_pos harity]
    exact performs_oks (fun _ _ => rfl) (pairs argv) fun _ => _
  · rw [show Command.ops m ht ⟨.MSET, argv⟩ = _ from if_neg harity, show execMset m ht ⟨.MSET, argv⟩ = _ from if_neg harity]
    exact performs_none _

theorem execStep_performs (type : CommandType) (key : Bytes) (delta : Int) :
    Performs m ht (guarded m ht key "string" (stepOps m ht key delta)) (execStep m ht ⟨type, [key]⟩ delta) := by
  refine Performs.typed ?_
  unfold stepOps
  cases htableGet m ht key with
  | error e => trivial
  | ok res =>
    cases res with
    | none => exact performs_one (o := .set key (intostr delta)) rfl fun _ => _
    | some res =>
      dsimp only [ok_bind]
      split
      · exact performs_one (o := .set key _) rfl fun _ => _
      · exact performs_none _

theorem execStepBy_performs (type : CommandType) (key arg : Bytes) (op : Int → Int → Int) :
    Performs m ht (guarded m ht key "string" (stepByOps m ht key arg op)) (execStepBy m ht ⟨type, [key, arg]⟩ op) := by
  refine Performs.typed ?_
  unfold stepByOps
  cases htableGet m ht key with
  | error e => trivial
  | ok res =>
    cases res with
    | none =>
      cases hnum : isNumber arg with
      | true => exact performs_one (o := .set key (intostr (strtoi arg))) rfl fun _ => _
      | false => trivial
    | some res =>
      dsimp only [ok_bind]
      rw [if_neg (fun h => Option.some_ne_none res h.1 : ¬(some res = none ∧ isNumber arg = true)), isNumberPtr, ok_bind]
      by_cases hnum : (isNumber res && isNumber arg) = true
      · rw [if_pos hnum, if_pos hnum]
        exact performs_one (o := .set key _) rfl fun _ => _
      · rw [if_neg hnum, if_neg hnum]
        exact performs_none _

theorem execHset_performs (argv : List Bytes) :
    Performs m ht (Command.ops m ht ⟨.HSET, argv⟩) (execHset m ht ⟨.HSET, argv⟩) := by
  cases argv with
  | nil => exact performs_none _
  | cons key args =>
    have harity : (key :: args).length ≥ 3 ∧ (key :: args).length % 2 = 1 ↔ args.length ≥ 2 ∧ args.length % 2 = 0 := by
      rw [List.length_cons]
      omega
    by_cases hargs : args.length ≥ 2 ∧ args.length % 2 = 0
    · rw [show Command.ops m ht ⟨.HSET, key :: args⟩ = _ from if_pos hargs,
        show execHset m ht ⟨.HSET, key :: args⟩ = _ from if_pos (harity.mpr hargs)]
      exact Performs.typed (performs_oks (fun _ _ => rfl) (pairs args) replyInteger)
    · rw [show Command.ops m ht ⟨.HSET, key :: args⟩ = _ from if_neg hargs,
        show execHset m ht ⟨.HSET, key :: args⟩ = _ from if_neg fun h => hargs (harity.mp h)]
      exact performs_none _

/-- `exec_hdel`, `exec_sadd` and `exec_srem`. -/
theorem execOks_performs (type : CommandType) (key : Bytes) (args : List Bytes)
    {f : Keyspace → Bytes → Bytes → Except Fault (Keyspace × Bool)} {op : Bytes → HtableOp}
    (hf : ∀ ht arg, (op arg).step m ht = do .ok (← f ht key arg).1) :
    Performs m ht (guarded m ht key expected (args.map op)) (execOks m ht ⟨type, key :: args⟩ expected f) := by
  cases args with
  | nil =>
    rw [List.map_nil, guarded_nil]
    exact performs_none _
  | cons arg args => exact Performs.typed (performs_oks hf (arg :: args) replyInteger)

theorem execPush_performs (type : CommandType) (key : Bytes) (args : List Bytes) (dir : ListDirection) :
    Performs m ht (guarded m ht key "list" (args.map (.push key · dir))) (execPush m ht ⟨type, key :: args⟩ dir) := by
  cases args with
  | nil =>
    rw [List.map_nil, guarded_nil]
    exact performs_none _
  | cons arg args => exact Performs.typed ((pushLoop_performs 0 (arg :: args)).bind fun _ _ h => h)

theorem execLset_performs (key arg value : Bytes) :
    Performs m ht (guarded m ht key "list" (lsetOps m ht key arg value)) (execLset m ht ⟨.LSET, [key, arg, value]⟩) := by
  refine Performs.typed ?_
  unfold lsetOps
  cases hnum : isNumber arg with
  | false =>
    split
    · exact performs_none _
    · exact performs_none _
  | true =>
    cases htableCheckId m ht key (strtoi arg) with
    | error e => trivial
    | ok r =>
      obtain ⟨code, id⟩ := r
      by_cases hcode : code = 0
      · simp only [hcode, ok_bind, ne_eq, not_true_eq_false, and_false, if_false, if_true]
        exact performs_none _
      · simp only [hcode, ok_bind, ne_eq, not_false_eq_true, and_self, if_false, if_true]
        exact performs_one (o := .lset key id value) rfl fun _ => _

theorem execLrem_performs (key arg value : Bytes) :
    Performs m ht (guarded m ht key "list" (if isNumber arg then [.lrem key (strtoi arg) value] else []))
      (execLrem m ht ⟨.LREM, [key, arg, value]⟩) := by
  refine Performs.typed ?_
  split
  · exact performs_one (o := .lrem key (strtoi arg) value) rfl replyInteger
  · exact performs_none _

theorem execPop_performs (type : CommandType) (key : Bytes) (dir : ListDirection) :
    Performs m ht (guarded m ht key "list" [.pop key dir]) (execPop m ht ⟨type, [key]⟩ dir) :=
  Performs.typed (performs_one (o := .pop key dir) rfl replyString)

/-- A command that returns has performed its operations. -/
theorem interpret_performs (cmd : Command) : Performs m ht (cmd.ops m ht) (interpret m ht cmd) := by
  obtain ⟨type, argv⟩ := cmd
  cases type with
  | DEL => exact execDel_performs argv
  | SET => exact execSet_performs argv
  | MSET => exact execMset_performs argv
  | HSET => exact execHset_performs argv
  | INCR =>
    match argv with
    | [] | _ :: _ :: _ => exact performs_none _
    | [key] => exact execStep_performs .INCR key 1
  | DECR =>
    match argv with
    | [] | _ :: _ :: _ => exact performs_none _
    | [key] => exact execStep_performs .DECR key (-1)
  | INCRBY =>
    match argv with
    | [] | [_] | _ :: _ :: _ :: _ => exact performs_none _
    | [key, arg] => exact execStepBy_performs .INCRBY key arg (· + ·)
  | DECRBY =>
    match argv with
    | [] | [_] | _ :: _ :: _ :: _ => exact performs_none _
    | [key, arg] => exact execStepBy_performs .DECRBY key arg (· - ·)
  | HDEL =>
    cases argv with
    | nil => exact performs_none _
    | cons key args => exact execOks_performs .HDEL key args fun _ _ => rfl
  | SADD =>
    cases argv with
    | nil => exact performs_none _
    | cons key args => exact execOks_performs .SADD key args fun _ _ => rfl
  | SREM =>
    cases argv with
    | nil => exact performs_none _
    | cons key args => exact execOks_performs .SREM key args fun _ _ => rfl
  | LPUSH =>
    cases argv with
    | nil => exact performs_none _
    | cons key args => exact execPush_performs .LPUSH key args .LEFT
  | RPUSH =>
    cases argv with
    | nil => exact performs_none _
    | cons key args => exact execPush_performs .RPUSH key args .RIGHT
  | LPOP =>
    match argv with
    | [] | _ :: _ :: _ => exact performs_none _
    | [key] => exact execPop_performs .LPOP key .LEFT
  | RPOP =>
    match argv with
    | [] | _ :: _ :: _ => exact performs_none _
    | [key] => exact execPop_performs .RPOP key .RIGHT
  | LSET =>
    match argv with
    | [] | [_] | [_, _] | _ :: _ :: _ :: _ :: _ => exact performs_none _
    | [key, arg, value] => exact execLset_performs key arg value
  | LREM =>
    match argv with
    | [] | [_] | [_, _] | _ :: _ :: _ :: _ :: _ => exact performs_none _
    | [key, arg, value] => exact execLrem_performs key arg value
  | EXISTS => exact execExists_leaves
  | TYPE => exact execType_leaves
  | GET => exact execGet_leaves
  | MGET => exact execMget_leaves
  | STRLEN => exact execStrlen_leaves
  | HGET => exact execHget_leaves
  | HGETALL => exact execHgetall_leaves
  | HEXISTS => exact execHexists_leaves
  | HKEYS => exact execHkeyvals_leaves 1
  | HVALS => exact execHkeyvals_leaves 0
  | HMGET => exact execHmget_leaves
  | HLEN => exact execHlen_leaves
  | LLEN => exact execLlen_leaves
  | LINDEX => exact execLindex_leaves
  | LRANGE => exact execLrange_leaves
  | LPOS => exact execLpos_leaves
  | SISMEMBER => exact execSismember_leaves
  | SMEMBERS => exact execSmembers_leaves
  | SMISMEMBER => exact execSmismember_leaves
  | UNKNOWN => exact performs_none _
  | QUIT => exact performs_none _
  | SHUTDOWN => exact performs_none _
  | NOOP => exact performs_none _

theorem interpret_ops {reply : Bytes} (h : interpret m ht cmd = .ok (ht', reply)) :
    Runs.run (HtableOp.step m) ht (cmd.ops m ht) = .ok ht' := (interpret_performs cmd).of_ok h

theorem serve_ops (h : serve m ht cmd = .ok ht') : Runs.run (HtableOp.step m) ht (cmd.ops m ht) = .ok ht' := by
  obtain ⟨⟨t, reply⟩, hrun, heq⟩ := bind_eq_ok.mp h
  cases heq
  exact interpret_ops hrun

/-- Every operation that the command performs meets `P` in the keyspace that it meets. -/
def Command.Meets (m : IntMode) (P : Keyspace → HtableOp → Prop) (ht : Keyspace) (cmd : Command) : Prop :=
  Runs.Along (HtableOp.step m) P ht (cmd.ops m ht)

instance (m : IntMode) (P : Keyspace → HtableOp → Prop) [∀ ht op, Decidable (P ht op)] (ht : Keyspace) (cmd : Command) :
    Decidable (cmd.Meets m P ht) := inferInstanceAs (Decidable (Runs.Along (HtableOp.step m) P ht (cmd.ops m ht)))

/-- A run of commands is a run of their operations. -/
theorem reached_ops {P : Keyspace → HtableOp → Prop}
    (h : Runs.Reached (serve m) (htableInit htBaseSize) (Command.Meets m P) ht) : HtableReached m P ht := by
  induction h with
  | init => exact .init
  | step _ hmeets hserve ih => exact ih.along hmeets (serve_ops hserve)

end Operations
end MemKey
