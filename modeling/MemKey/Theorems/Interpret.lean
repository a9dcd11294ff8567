import MemKey.Lib.Runs
import MemKey.Theorems.Commands

/-! Runs of commands from the empty keyspace. Every keyspace that they reach is sound, so that the two faults
    of the handlers are the only ones, and an error reply means that the keyspace is as it was. -/

namespace MemKey
open Outcome Resp

/-- The replies of `QUIT`, `SHUTDOWN` and `NOOP`, which are no RESP values. -/
def bareReply : CommandType → Option Bytes
  | .QUIT => some (str "q")
  | .SHUTDOWN => some (str "x")
  | .NOOP => some []
  | _ => none

/-- The keyspace after a command that returns. -/
def serve (m : IntMode) (ht : Keyspace) (cmd : Command) : Except Fault Keyspace := do .ok (← interpret m ht cmd).1

/-- The keyspaces that commands reach from the one that the server starts with. -/
abbrev Reachable (m : IntMode) : Keyspace → Prop :=
  Runs.Reached (serve m) (htableInit htBaseSize) fun _ _ => True

/-- `INCRBY` or `DECRBY` of a missing key by an argument that is no number. -/
def StepsNull (m : IntMode) (ht : Keyspace) (cmd : Command) : Prop :=
  (cmd.type = .INCRBY ∨ cmd.type = .DECRBY) ∧ NullStep m ht cmd.argv

/-- `MGET` of a key that holds no string, after one or more keys that are missing or do. -/
def MixedMget (m : IntMode) (ht : Keyspace) (cmd : Command) : Prop := cmd.type = .MGET ∧ MixedKeys m ht cmd.argv

/-- What a command can run into. -/
def CanFail (m : IntMode) (ht : Keyspace) (cmd : Command) (e : Fault) : Prop :=
  Escapes m e ∨ e = .nullPointer ∧ StepsNull m ht cmd ∨ e = .wrongType ∧ MixedMget m ht cmd

/-- The command returns a reply. A read of a value as one of another type, which is not modelled further, and
    an index that has wrapped are no missing values. -/
def Replies (m : IntMode) (ht : Keyspace) (cmd : Command) : Prop :=
  Ensures (interpret m ht cmd) (fun _ => True) fun e => Escapes m e ∨ e = .wrongType ∧ MixedMget m ht cmd

section Interpret
variable {m : IntMode} {ht ht' : Keyspace} {cmd : Command} {reply : Bytes}

theorem bareReply_cases {type : CommandType} (hb : bareReply type = some reply) :
    type = .QUIT ∧ reply = str "q" ∨ type = .SHUTDOWN ∧ reply = str "x" ∨ type = .NOOP ∧ reply = [] := by
  unfold bareReply at hb
  split at hb
  · exact .inl ⟨rfl, (Option.some.inj hb).symm⟩
  · exact .inr (.inl ⟨rfl, (Option.some.inj hb).symm⟩)
  · exact .inr (.inr ⟨rfl, (Option.some.inj hb).symm⟩)
  · cases hb

theorem interpret_bare (hb : bareReply cmd.type = some reply) : interpret m ht cmd = .ok (ht, reply) := by
  rcases bareReply_cases hb with ⟨htype, rfl⟩ | ⟨htype, rfl⟩ | ⟨htype, rfl⟩ <;> rw [interpret, htype]

theorem unknown_spec (h : Sound m (Tagged m) ht) :
    Answers m ht (ht, str "-ERR unrecognized command" ++ crlf) :=
  .error h ⟨⟨str "ERR unrecognized command", by decide⟩, by decide⟩

theorem interpret_spec (h : Sound m (Tagged m) ht) (hb : bareReply cmd.type = none) :
    Ensures (interpret m ht cmd) (Answers m ht) (CanFail m ht cmd) := by
  have lift {x : Exec} (hx : Ensures x (Answers m ht) (Escapes m)) : Ensures x (Answers m ht) (CanFail m ht cmd) :=
    hx.mono (fun _ => id) fun _ => .inl
  have stepBy (op : Int → Int → Int) (htype : cmd.type = .INCRBY ∨ cmd.type = .DECRBY) :
      Ensures (execStepBy m ht cmd op) (Answers m ht) (CanFail m ht cmd) :=
    (execStepBy_spec h cmd op).mono (fun _ => id) fun _ he => he.imp id fun he => .inl ⟨he.1, htype, he.2⟩
  obtain ⟨type, argv⟩ := cmd
  cases type with
  | DEL => exact lift (execDel_spec h _)
  | EXISTS => exact lift (execExists_spec h _)
  | TYPE => exact lift (execType_spec h _)
  | SET => exact lift (execSet_spec h _)
  | GET => exact lift (execGet_spec h _)
  | MSET => exact lift (execMset_spec h _)
  | MGET => exact (execMget_spec h _).mono (fun _ => id) fun _ he => he.imp id fun he => .inr ⟨he.1, rfl, he.2⟩
  | INCR => exact lift (execStep_spec h _ 1)
  | DECR => exact lift (execStep_spec h _ (-1))
  | INCRBY => exact stepBy (· + ·) (.inl rfl)
  | DECRBY => exact stepBy (· - ·) (.inr rfl)
  | STRLEN => exact lift (execStrlen_spec h _)
  | HSET => exact lift (execHset_spec h _)
  | HGET => exact lift (execHget_spec h _)
  | HDEL => exact lift (execOks_spec h _ rfl fun _ _ field hs => hs.hdel_spec field)
  | HGETALL => exact lift (execHgetall_spec h _)
  | HEXISTS => exact lift (execHexists_spec h _)
  | HKEYS => exact lift (execHkeyvals_spec h _ 1)
  | HVALS => exact lift (execHkeyvals_spec h _ 0)
  | HMGET => exact lift (execHmget_spec h _)
  | HLEN => exact lift (execHlen_spec h _)
  | LPUSH => exact lift (execPush_spec h _ .LEFT)
  | LPOP => exact lift (execPop_spec h _ .LEFT)
  | RPUSH => exact lift (execPush_spec h _ .RIGHT)
  | RPOP => exact lift (execPop_spec h _ .RIGHT)
  | LLEN => exact lift (execLlen_spec h _)
  | LINDEX => exact lift (execLindex_spec h _)
  | LRANGE => exact lift (execLrange_spec h _)
  | LSET => exact lift (execLset_spec h _)
  | LREM => exact lift (execLrem_spec h _)
  | LPOS => exact lift (execLpos_spec h _)
  | SADD => exact lift (execOks_spec h _ rfl fun _ _ value hs => hs.sadd_spec value)
  | SREM => exact lift (execOks_spec h _ rfl fun _ _ value hs => hs.srem_spec value)
  | SISMEMBER => exact lift (execSismember_spec h _)
  | SMEMBERS => exact lift (execSmembers_spec h _)
  | SMISMEMBER => exact lift (execSmismember_spec h _)
  | UNKNOWN => exact unknown_spec h
  | QUIT => cases hb
  | SHUTDOWN => cases hb
  | NOOP => cases hb

theorem interpret_sound (h : Sound m (Tagged m) ht) (cmd : Command) :
    Ensures (interpret m ht cmd) (fun r => Sound m (Tagged m) r.1) (CanFail m ht cmd) := by
  cases hb : bareReply cmd.type with
  | none => exact (interpret_spec h hb).post fun _ hr => hr.sound
  | some reply =>
    rw [interpret_bare hb]
    exact h

theorem Reachable.sound (h : Reachable m ht) : Sound m (Tagged m) ht := by
  refine h.invariant (Sound m (Tagged m)) .init fun ht cmd ht' hs _ hstep => ?_
  obtain ⟨r, hr, heq⟩ := bind_eq_ok.mp hstep
  cases heq
  exact (interpret_sound hs cmd).of_ok hr

/-- The keyspace that `HSET h a 1` leaves. -/
def oneHash : Keyspace := ⟨2, 1, [.null, .live ⟨.HASH_T, str "h", .hash (oneString 0 (str "a") (str "1"))⟩]⟩

theorem oneHash_reached : Reachable .wrap oneHash :=
  .step .init trivial (show serve .wrap _ ⟨.HSET, [str "h", str "a", str "1"]⟩ = _ from rfl)

/-! ### Missing values -/

theorem StepsNull.fault (h : StepsNull m ht cmd) : interpret m ht cmd = .error .nullPointer := by
  obtain ⟨htype | htype, hnull⟩ := h <;> rw [interpret, htype]
  · exact hnull.fault (· + ·)
  · exact hnull.fault (· - ·)

/-- Every command replies, save `INCRBY` and `DECRBY` of a missing key by an argument that is no number. -/
theorem command_replies (h : Reachable m ht) (cmd : Command) :
    (Replies m ht cmd ↔ ¬StepsNull m ht cmd) ∧ (interpret m ht cmd = .error .nullPointer ↔ StepsNull m ht cmd) := by
  have hspec := interpret_sound h.sound cmd
  refine ⟨⟨fun hr hnull => ?_, fun hnull => ?_⟩, fun herr => ?_, StepsNull.fault⟩
  · rw [Replies, hnull.fault] at hr
    rcases hr with ⟨-, he⟩ | ⟨he, -⟩ <;> cases he
  · refine hspec.mono (fun _ _ => trivial) fun e he => ?_
    rcases he with he | ⟨-, he⟩ | he
    · exact .inl he
    · exact absurd he hnull
    · exact .inr he
  · rcases hspec.of_error herr with ⟨-, he⟩ | ⟨-, he⟩ | ⟨he, -⟩
    · cases he
    · exact he
    · cases he

theorem command_replies_number : Replies .wrap oneHash ⟨.INCRBY, [str "n", str "5"]⟩ := by
  refine (command_replies oneHash_reached _).1.mpr ?_
  rintro ⟨-, key, arg, hargv, -, hnum⟩
  cases hargv
  exact absurd hnum (by decide)

/-- `INCRBY n abc` on the empty keyspace. -/
theorem command_crashes : Reachable .wrap (htableInit htBaseSize) ∧
    interpret .wrap (htableInit htBaseSize) ⟨.INCRBY, [str "n", str "abc"]⟩ = .error .nullPointer := ⟨.init, rfl⟩

/-! ### Values of another type -/

theorem MixedMget.fault (hmix : MixedMget m ht cmd) (h : Sound m (Tagged m) ht) :
    interpret m ht cmd = .error .wrongType := by
  rw [interpret, hmix.1]
  exact hmix.2.fault h

/-- What an item holds is what its tag says, and commands read it as that, save `MGET` of a key that holds no
    string after keys that do or are missing. -/
theorem values_read_as_tagged (h : Reachable m ht) (cmd : Command) :
    (∀ a ∈ ht.entries, Tagged m a) ∧ (interpret m ht cmd ≠ .error .wrongType ↔ ¬MixedMget m ht cmd) := by
  refine ⟨h.sound.items, fun hne hmix => hne (hmix.fault h.sound), fun hmix herr => ?_⟩
  rcases (interpret_sound h.sound cmd).of_error herr with ⟨-, he⟩ | ⟨he, -⟩ | ⟨-, he⟩
  · cases he
  · cases he
  · exact hmix he

/-- `MGET h x`: the guard stops at the hash. -/
theorem values_read_as_tagged_guard : interpret .wrap oneHash ⟨.MGET, [str "h", str "x"]⟩ ≠ .error .wrongType := by
  refine (values_read_as_tagged oneHash_reached _).2.mpr ?_
  rintro ⟨-, pre, key, post, hargv, hne, hpre, -⟩
  obtain ⟨k, pre, rfl⟩ := List.exists_cons_of_ne_nil hne
  obtain ⟨rfl, -⟩ := List.cons_eq_cons.mp hargv
  obtain ⟨r, hsearch, hr⟩ := hpre (str "h") (List.mem_cons_self ..)
  have hfound : htableSearch .wrap oneHash (str "h") =
      .ok (some ⟨.HASH_T, str "h", .hash (oneString 0 (str "a") (str "1"))⟩) := rfl
  exact nomatch hr _ (Except.ok.inj (hsearch.symm.trans hfound))

/-- `MGET x h` after `HSET h a 1` reads the hash as a string. -/
theorem hash_read_as_string : Reachable .wrap oneHash ∧ htableType .wrap oneHash (str "h") = .ok (str "hash") ∧
    interpret .wrap oneHash ⟨.MGET, [str "x", str "h"]⟩ = .error .wrongType :=
  ⟨oneHash_reached, rfl, rfl⟩

/-! ### Error replies -/

theorem IsData.head (h : IsData reply) : reply.head? ≠ some dash := by
  rcases h with ⟨s, rfl⟩ | ⟨l, rfl⟩
  · obtain ⟨b, t, henc, hb⟩ := s.head_encode
    have hne : b ≠ dash := by rcases hb with rfl | rfl <;> decide
    rw [Reply.encode, henc]
    exact fun hd => hne (Option.some.inj hd)
  · rw [Reply.encode]
    exact fun hd => absurd (Option.some.inj hd) (by decide)

/-- A command that replies with an error leaves the keyspace as it was. -/
theorem error_changes_nothing (h : Reachable m ht) (hrun : interpret m ht cmd = .ok (ht', reply))
    (herr : reply.head? = some dash) : ht' = ht := by
  cases hb : bareReply cmd.type with
  | some bare =>
    rw [interpret_bare hb] at hrun
    cases hrun
    rfl
  | none =>
    rcases ((interpret_spec h.sound hb).of_ok hrun).reply with hdata | ⟨-, heq⟩
    · exact absurd herr hdata.head
    · exact heq

theorem error_changes_nothing_type :
    ∃ ht', interpret .wrap oneHash ⟨.GET, [str "h"]⟩ = .ok (ht', replyErrType) ∧ ht' = oneHash := by
  have hrun : interpret .wrap oneHash ⟨.GET, [str "h"]⟩ = .ok (oneHash, replyErrType) := rfl
  exact ⟨oneHash, hrun, error_changes_nothing oneHash_reached hrun (by decide)⟩

end Interpret
end MemKey
