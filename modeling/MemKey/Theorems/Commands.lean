import MemKey.Interpreter
import MemKey.Theorems.Keyspace
import MemKey.Theorems.Replies

/-! What a command does in a sound keyspace: the one that it leaves is sound again, its reply is data or an
    error line, and an error line means that nothing changed. The exceptions are two faults of the handlers:
    `INCRBY` and `DECRBY` can hand NULL to `is_number`, and `MGET` checks its first key alone. -/

namespace MemKey
open Outcome Resp

/-- The reply is one scalar or one array. -/
def IsData (reply : Bytes) : Prop :=
  (∃ s, reply = (Reply.scalar s).encode) ∨ ∃ l, reply = (Reply.array l).encode

/-- The outcome of a command: a sound keyspace and a reply, which is no error if the keyspace has changed. -/
structure Answers (m : IntMode) (ht : Keyspace) (r : Keyspace × Bytes) : Prop where
  sound : Sound m (Tagged m) r.1
  reply : IsData r.2 ∨ IsError r.2 ∧ r.1 = ht

/-- The key is missing or holds a string. -/
def Readable (m : IntMode) (ht : Keyspace) (key : Bytes) : Prop :=
  ∃ r, htableSearch m ht key = .ok r ∧ ∀ a, r = some a → a.type = .STR_T

/-- The key holds a value that is no string. -/
def Foreign (m : IntMode) (ht : Keyspace) (key : Bytes) : Prop :=
  ∃ a, htableSearch m ht key = .ok (some a) ∧ a.type ≠ .STR_T

/-- A key that holds no string, after one or more keys that are missing or do. -/
def MixedKeys (m : IntMode) (ht : Keyspace) (keys : List Bytes) : Prop :=
  ∃ pre key post, keys = pre ++ key :: post ∧ pre ≠ [] ∧ (∀ k ∈ pre, Readable m ht k) ∧ Foreign m ht key

/-- A missing key and an argument that is no number. -/
def NullStep (m : IntMode) (ht : Keyspace) (argv : List Bytes) : Prop :=
  ∃ key arg, argv = [key, arg] ∧ htableSearch m ht key = .ok none ∧ isNumber arg = false

theorem isData_string (s : Option Bytes) : IsData (replyString s) := .inl ⟨_, replyString_eq s⟩

theorem isData_integer (x : Int) : IsData (replyInteger x) := .inl ⟨_, replyInteger_eq x⟩

theorem isData_arrayN (arr : List (Option Bytes)) : IsData (replyArrayN arr) := .inr ⟨_, replyArrayN_eq arr⟩

theorem isData_array (arr : Option (List Bytes)) : IsData (replyArray arr) := by
  cases arr with
  | none => exact .inr ⟨_, replyArray_none_eq⟩
  | some arr => exact .inr ⟨_, replyArray_some_eq arr⟩

section Commands
variable {m : IntMode} {ht ht' : Keyspace} {key : Bytes} {T : ItemType} {E : Fault → Prop} {ρ : Type}
  {reply : Bytes} {expected : String}

theorem Answers.data (h : Sound m (Tagged m) ht') (hreply : IsData reply) : Answers m ht (ht', reply) :=
  ⟨h, .inl hreply⟩

theorem Answers.error (h : Sound m (Tagged m) ht) (hreply : IsError reply) : Answers m ht (ht, reply) :=
  ⟨h, .inr ⟨hreply, rfl⟩⟩

theorem Answers.argc (h : Sound m (Tagged m) ht) (given : ℕ) (hexp : cr ∉ str expected ∧ lf ∉ str expected) :
    Answers m ht (ht, replyErrArgc given expected) :=
  .error h (replyErrArgc_isError given hexp)

/-! ### The guard -/

theorem isType_typeName {T U : ItemType} : isType (typeName U) (typeName T) = true ↔ U = T := by
  cases T <;> cases U <;> decide

theorem htableType_eq {r : Option (HashTableItem Value)} (h : htableSearch m ht key = .ok r) :
    htableType m ht key = .ok (r.elim (str "none") (typeName ·.type)) := by
  rw [htableType, h, ok_bind]
  cases r <;> rfl

theorem htableType_error {e : Fault} (h : htableSearch m ht key = .error e) : htableType m ht key = .error e := by
  rw [htableType, h]
  rfl

/-- An item that the search does not return has another key. -/
theorem Sound.at_key (h : Sound m (Tagged m) ht) {r : Option (HashTableItem Value)}
    (hsearch : htableSearch m ht key = .ok r) (hr : ∀ a, r = some a → a.type = T) :
    Sound m (TaggedAt m key T) ht := by
  refine h.mono fun a ha htag => ⟨htag, fun hk => hr a ?_⟩
  have hfound := h.keyed.search_iff.mpr ⟨ha, hk⟩
  exact Except.ok.inj (hsearch.symm.trans hfound)

theorem typed_missing (hsearch : htableSearch m ht key = .ok none) {expected : String} {body : Exec} :
    typed m ht key expected body = body := by
  rw [typed, htableType_eq hsearch, ok_bind]
  exact if_pos (by simp [isType])

theorem typed_found {a : HashTableItem Value} (hsearch : htableSearch m ht key = .ok (some a)) {expected : String}
    {body : Exec} (hexp : str expected = typeName a.type) : typed m ht key expected body = body := by
  rw [typed, htableType_eq hsearch, ok_bind, hexp]
  exact if_pos (isType_typeName.mpr rfl)

/-- The guard lets a missing key and one of the expected type through. -/
theorem typed_open {r : Option (HashTableItem Value)} (hsearch : htableSearch m ht key = .ok r) {body : Exec}
    (hexp : str expected = typeName T) (hr : ∀ a, r = some a → a.type = T) :
    typed m ht key expected body = body := by
  cases r with
  | none => exact typed_missing hsearch
  | some a => exact typed_found hsearch (hexp.trans (congrArg typeName (hr a rfl).symm))

theorem typed_error {e : Fault} (hsearch : htableSearch m ht key = .error e) {body : Exec} :
    typed m ht key expected body = .error e := by
  rw [typed, htableType_error hsearch]
  rfl

/-- Behind the guard the key is missing or has the expected type. -/
theorem typed_spec (h : Sound m (Tagged m) ht) (hexp : str expected = typeName T) {body : Exec}
    (hE : ∀ e, Escapes m e → E e)
    (hbody : ∀ r, htableSearch m ht key = .ok r → Sound m (TaggedAt m key T) ht → Ensures body (Answers m ht) E) :
    Ensures (typed m ht key expected body) (Answers m ht) E := by
  unfold typed
  cases hsearch : htableSearch m ht key with
  | error e =>
    rw [htableType_error hsearch]
    exact hE e ((h.search_spec key).of_error hsearch)
  | ok r =>
    rw [htableType_eq hsearch, ok_bind, hexp]
    refine .ite (fun htype => hbody r hsearch (h.at_key hsearch fun a ha => ?_)) fun _ => .error h replyErrType_isError
    subst ha
    exact isType_typeName.mp htype

theorem typed_read (h : Sound m (Tagged m) ht) (hexp : str expected = typeName T) {read : Except Fault ρ}
    {data : ρ → Bytes} (hread : Sound m (TaggedAt m key T) ht → Ensures read (fun _ => True) (Escapes m))
    (hdata : ∀ r, IsData (data r)) :
    Ensures (typed m ht key expected (do .ok (ht, data (← read)))) (Answers m ht) (Escapes m) :=
  typed_spec h hexp (fun _ => id) fun _ _ hs => (hread hs).bind fun r _ _ => .data h (hdata r)

theorem typed_write (h : Sound m (Tagged m) ht) (hexp : str expected = typeName T)
    {write : Except Fault (Keyspace × ρ)} {data : ρ → Bytes}
    (hwrite : Sound m (TaggedAt m key T) ht → Ensures write (fun r => Sound m (TaggedAt m key T) r.1) (Escapes m))
    (hdata : ∀ r, IsData (data r)) :
    Ensures (typed m ht key expected (do
      let (ht, r) ← write
      .ok (ht, data r))) (Answers m ht) (Escapes m) :=
  typed_spec h hexp (fun _ => id) fun _ _ hs => (hwrite hs).bind fun (_, r) _ hs => .data hs.tagged (hdata r)

/-! ### The argument loops -/

theorem oksLoop_spec {α : Type} {f : Keyspace → α → Except Fault (Keyspace × Bool)} {I : Keyspace → Prop}
    (hf : ∀ ht a, I ht → Ensures (f ht a) (fun r => I r.1) E) (h : I ht) (oks : Int) (args : List α) :
    Ensures (oksLoop f ht oks args) (fun r => I r.1) E := by
  induction args generalizing ht oks with
  | nil => exact h
  | cons a args ih => exact (hf ht a h).bind fun (_, _) _ h => ih h _

theorem pushLoop_spec {dir : ListDirection} (h : Sound m (TaggedAt m key .LIST_T) ht) (len : Int)
    (args : List Bytes) :
    Ensures (pushLoop m dir key ht len args) (fun r => Sound m (TaggedAt m key .LIST_T) r.1) (Escapes m) := by
  induction args generalizing ht len with
  | nil => exact h
  | cons a args ih => exact (h.push_spec a dir).bind fun (_, _) _ h => ih h _

theorem mapM_spec {α β : Type} {f : α → Except Fault β} (hf : ∀ a, Ensures (f a) (fun _ => True) E) (args : List α) :
    Ensures (args.mapM f) (fun _ => True) E :=
  (Ensures.mapM fun a _ => hf a).post fun _ _ => trivial

/-! ### The handlers -/

theorem tagged_str (key value : Bytes) : Tagged m ⟨.STR_T, key, .str value⟩ := Holds.str value

theorem set_number_spec (h : Sound m (Tagged m) ht) (key : Bytes) (x : Int) :
    Ensures (do
      let (ht, _) ← htableSet m ht key (intostr x)
      .ok (ht, replyInteger x)) (Answers m ht) (Escapes m) :=
  (h.set_spec (tagged_str key (intostr x))).bind fun (_, _) _ hs => .data hs (isData_integer x)

theorem execDel_spec (h : Sound m (Tagged m) ht) (cmd : Command) :
    Ensures (execDel m ht cmd) (Answers m ht) (Escapes m) := by
  refine .ite (fun _ => ?_) fun _ => .argc h _ (by decide)
  have hloop := oksLoop_spec (fun ht key (hs : Sound m (Tagged m) ht) => hs.del_spec key) h 0 cmd.argv
  exact hloop.bind fun (_, oks) _ hs => .data hs (isData_integer oks)

theorem Sound.found_spec (h : Sound m (Tagged m) ht) (key : Bytes) :
    Ensures (htableExists m ht key) (fun _ => True) (Escapes m) :=
  (h.search_spec key).bind fun _ _ _ => trivial

theorem execExists_spec (h : Sound m (Tagged m) ht) (cmd : Command) :
    Ensures (execExists m ht cmd) (Answers m ht) (Escapes m) := by
  refine .ite (fun _ => ?_) fun _ => .argc h _ (by decide)
  have hstep (ht : Keyspace) (key : Bytes) (hs : Sound m (Tagged m) ht) :
      Ensures (do .ok (ht, ← htableExists m ht key)) (fun r => Sound m (Tagged m) r.1) (Escapes m) :=
    (hs.found_spec key).bind fun _ _ _ => hs
  exact (oksLoop_spec hstep h 0 cmd.argv).bind fun (_, oks) _ hs => .data hs (isData_integer oks)

theorem execType_spec (h : Sound m (Tagged m) ht) (cmd : Command) :
    Ensures (execType m ht cmd) (Answers m ht) (Escapes m) := by
  unfold execType
  split
  · rename_i key _
    cases hsearch : htableSearch m ht key with
    | error e =>
      rw [htableType_error hsearch]
      exact (h.search_spec key).of_error hsearch
    | ok r =>
      rw [htableType_eq hsearch]
      exact .data h (isData_string _)
  · exact .argc h _ (by decide)

theorem execSet_spec (h : Sound m (Tagged m) ht) (cmd : Command) :
    Ensures (execSet m ht cmd) (Answers m ht) (Escapes m) := by
  unfold execSet
  split
  · exact .data h (isData_string _)
  · exact (h.set_spec (tagged_str _ [])).bind fun (_, _) _ hs => .data hs (isData_string _)
  · exact (h.set_spec (tagged_str _ _)).bind fun (_, _) _ hs => .data hs (isData_string _)
  · exact .argc h _ (by decide)

theorem execGet_spec (h : Sound m (Tagged m) ht) (cmd : Command) :
    Ensures (execGet m ht cmd) (Answers m ht) (Escapes m) := by
  unfold execGet
  split
  · exact typed_read h rfl (fun hs => hs.get_spec) isData_string
  · exact .argc h _ (by decide)

theorem execMset_spec (h : Sound m (Tagged m) ht) (cmd : Command) :
    Ensures (execMset m ht cmd) (Answers m ht) (Escapes m) := by
  refine .ite (fun _ => ?_) fun _ => .argc h _ (by decide)
  have hstep (ht : Keyspace) (p : Bytes × Bytes) (hs : Sound m (Tagged m) ht) :
      Ensures (htableSet m ht p.1 p.2) (fun r => Sound m (Tagged m) r.1) (Escapes m) := hs.set_spec (tagged_str p.1 p.2)
  exact (oksLoop_spec hstep h 0 (pairs cmd.argv)).bind fun (_, _) _ hs => .data hs (isData_string _)

theorem execStep_spec (h : Sound m (Tagged m) ht) (cmd : Command) (delta : Int) :
    Ensures (execStep m ht cmd delta) (Answers m ht) (Escapes m) := by
  unfold execStep
  split
  · refine typed_spec h rfl (fun _ => id) fun _ _ hs => hs.get_spec.bind fun res _ _ => ?_
    cases res with
    | none => exact set_number_spec h _ delta
    | some res => exact .ite (fun _ => set_number_spec h _ _) fun _ => .error h replyErrIntid_isError
  · exact .argc h _ (by decide)

theorem execStrlen_spec (h : Sound m (Tagged m) ht) (cmd : Command) :
    Ensures (execStrlen m ht cmd) (Answers m ht) (Escapes m) := by
  unfold execStrlen
  split
  · refine typed_spec h rfl (fun _ => id) fun _ _ hs => hs.get_spec.bind fun res _ _ => ?_
    cases res with
    | none => exact .data h (isData_integer 0)
    | some res => exact .data h (isData_integer res.length)
  · exact .argc h _ (by decide)

theorem execHset_spec (h : Sound m (Tagged m) ht) (cmd : Command) :
    Ensures (execHset m ht cmd) (Answers m ht) (Escapes m) := by
  unfold execHset
  split
  · refine .ite (fun _ => ?_) fun _ => .argc h _ (by decide)
    exact typed_write h rfl (fun hs => oksLoop_spec (fun _ p hs => hs.hset_spec p.1 p.2) hs 0 _) isData_integer
  · exact .argc h _ (by decide)

theorem execHget_spec (h : Sound m (Tagged m) ht) (cmd : Command) :
    Ensures (execHget m ht cmd) (Answers m ht) (Escapes m) := by
  unfold execHget
  split
  · exact typed_read h rfl (fun hs => hs.hget_spec _) isData_string
  · exact .argc h _ (by decide)

/-- `exec_hdel`, `exec_sadd` and `exec_srem`. -/
theorem execOks_spec (h : Sound m (Tagged m) ht) (cmd : Command) (hexp : str expected = typeName T)
    {f : Keyspace → Bytes → Bytes → Except Fault (Keyspace × Bool)}
    (hf : ∀ ht key arg, Sound m (TaggedAt m key T) ht →
      Ensures (f ht key arg) (fun r => Sound m (TaggedAt m key T) r.1) (Escapes m)) :
    Ensures (execOks m ht cmd expected f) (Answers m ht) (Escapes m) := by
  unfold execOks
  split
  · exact typed_write h hexp (fun hs => oksLoop_spec (fun ht arg => hf ht _ arg) hs 0 _) isData_integer
  · exact .argc h _ (by decide)

theorem execHgetall_spec (h : Sound m (Tagged m) ht) (cmd : Command) :
    Ensures (execHgetall m ht cmd) (Answers m ht) (Escapes m) := by
  unfold execHgetall
  split
  · exact typed_read h rfl (fun hs => hs.hgetall_spec) isData_array
  · exact .argc h _ (by decide)

theorem execHexists_spec (h : Sound m (Tagged m) ht) (cmd : Command) :
    Ensures (execHexists m ht cmd) (Answers m ht) (Escapes m) := by
  unfold execHexists
  split
  · exact typed_spec h rfl (fun _ => id) fun _ _ hs => (hs.hget_spec _).bind fun _ _ _ => .data h (isData_integer _)
  · exact .argc h _ (by decide)

theorem execHkeyvals_spec (h : Sound m (Tagged m) ht) (cmd : Command) (ky : Int) :
    Ensures (execHkeyvals m ht cmd ky) (Answers m ht) (Escapes m) := by
  unfold execHkeyvals
  split
  · exact typed_read h rfl (fun hs => hs.hkeyvals_spec ky) isData_array
  · exact .argc h _ (by decide)

theorem execHmget_spec (h : Sound m (Tagged m) ht) (cmd : Command) :
    Ensures (execHmget m ht cmd) (Answers m ht) (Escapes m) := by
  unfold execHmget
  split
  · refine typed_spec (T := .HASH_T) h rfl (fun _ => id) fun _ _ hs => hs.exists_spec ?_ fun _ => .data h (isData_array none)
    exact (mapM_spec (fun field => hs.hget_spec field) _).bind fun _ _ _ => .data h (isData_arrayN _)
  · exact .argc h _ (by decide)

theorem execHlen_spec (h : Sound m (Tagged m) ht) (cmd : Command) :
    Ensures (execHlen m ht cmd) (Answers m ht) (Escapes m) := by
  unfold execHlen
  split
  · exact typed_read h rfl (fun hs => hs.hlen_spec) isData_integer
  · exact .argc h _ (by decide)

theorem execPush_spec (h : Sound m (Tagged m) ht) (cmd : Command) (dir : ListDirection) :
    Ensures (execPush m ht cmd dir) (Answers m ht) (Escapes m) := by
  unfold execPush
  split
  · exact typed_write h rfl (fun hs => pushLoop_spec hs 0 _) isData_integer
  · exact .argc h _ (by decide)

theorem execPop_spec (h : Sound m (Tagged m) ht) (cmd : Command) (dir : ListDirection) :
    Ensures (execPop m ht cmd dir) (Answers m ht) (Escapes m) := by
  unfold execPop
  split
  · exact typed_write h rfl (fun hs => hs.pop_spec dir) isData_string
  · exact .argc h _ (by decide)

theorem execLlen_spec (h : Sound m (Tagged m) ht) (cmd : Command) :
    Ensures (execLlen m ht cmd) (Answers m ht) (Escapes m) := by
  unfold execLlen
  split
  · exact typed_read h rfl (fun hs => hs.llen_spec) isData_integer
  · exact .argc h _ (by decide)

theorem execLindex_spec (h : Sound m (Tagged m) ht) (cmd : Command) :
    Ensures (execLindex m ht cmd) (Answers m ht) (Escapes m) := by
  unfold execLindex
  split
  · refine typed_spec (T := .LIST_T) h rfl (fun _ => id) fun _ _ hs => ?_
    refine .ite (fun _ => ?_) fun _ => .error h replyErrIntid_isError
    refine (hs.check_id_spec _).bind fun (code, id) _ _ => .ite (fun _ => .error h replyErrIntid_isError) fun _ => ?_
    refine .ite (fun _ => ?_) fun _ => .data h (isData_string none)
    exact (hs.lindex_spec id).bind fun _ _ _ => .data h (isData_string _)
  · exact .argc h _ (by decide)

theorem execLrange_spec (h : Sound m (Tagged m) ht) (cmd : Command) :
    Ensures (execLrange m ht cmd) (Answers m ht) (Escapes m) := by
  unfold execLrange
  split
  · refine typed_spec (T := .LIST_T) h rfl (fun _ => id) fun _ _ hs => ?_
    refine .ite (fun _ => ?_) fun _ => .error h replyErrIntid_isError
    refine (hs.check_ids_spec _ _).bind fun (code, bgn, end_) hids _ =>
      .ite (fun _ => .error h replyErrIntid_isError) fun _ => ?_
    refine .ite (fun hcode => ?_) fun _ => .data h (isData_array none)
    exact (hs.lrange_spec hids hcode).bind fun _ _ _ => .data h (isData_array _)
  · exact .argc h _ (by decide)

theorem execLset_spec (h : Sound m (Tagged m) ht) (cmd : Command) :
    Ensures (execLset m ht cmd) (Answers m ht) (Escapes m) := by
  unfold execLset
  split
  · refine typed_spec (T := .LIST_T) h rfl (fun _ => id) fun _ _ hs => ?_
    refine .ite (fun _ => ?_) fun _ => .error h replyErrIntid_isError
    refine (hs.check_id_spec _).bind fun (code, id) _ _ => .ite (fun _ => .error h replyErrIntid_isError) fun _ => ?_
    exact (hs.lset_spec id _).bind fun (_, _) _ hs => .data hs.tagged (isData_string _)
  · exact .argc h _ (by decide)

theorem execLrem_spec (h : Sound m (Tagged m) ht) (cmd : Command) :
    Ensures (execLrem m ht cmd) (Answers m ht) (Escapes m) := by
  unfold execLrem
  split
  · refine typed_spec (T := .LIST_T) h rfl (fun _ => id) fun _ _ hs => ?_
    refine .ite (fun _ => ?_) fun _ => .error h replyErrIntid_isError
    exact (hs.lrem_spec _ _).bind fun (_, res) _ hs => .data hs.tagged (isData_integer res)
  · exact .argc h _ (by decide)

theorem execLpos_spec (h : Sound m (Tagged m) ht) (cmd : Command) :
    Ensures (execLpos m ht cmd) (Answers m ht) (Escapes m) := by
  unfold execLpos
  split
  · refine typed_read h rfl (fun hs => hs.lpos_spec _) fun res => ?_
    split
    · exact isData_string none
    · exact isData_integer res
  · exact .argc h _ (by decide)

theorem execSismember_spec (h : Sound m (Tagged m) ht) (cmd : Command) :
    Ensures (execSismember m ht cmd) (Answers m ht) (Escapes m) := by
  unfold execSismember
  split
  · refine typed_spec h rfl (fun _ => id) fun _ _ hs => (hs.sismember_spec _).bind fun _ _ _ => ?_
    exact .data h (isData_integer _)
  · exact .argc h _ (by decide)

theorem execSmembers_spec (h : Sound m (Tagged m) ht) (cmd : Command) :
    Ensures (execSmembers m ht cmd) (Answers m ht) (Escapes m) := by
  unfold execSmembers
  split
  · exact typed_read h rfl (fun hs => hs.smembers_spec) isData_array
  · exact .argc h _ (by decide)

theorem execSmismember_spec (h : Sound m (Tagged m) ht) (cmd : Command) :
    Ensures (execSmismember m ht cmd) (Answers m ht) (Escapes m) := by
  unfold execSmismember
  split
  · refine typed_spec (T := .SET_T) h rfl (fun _ => id) fun _ _ hs => hs.exists_spec ?_ fun _ => .data h (isData_array none)
    refine (mapM_spec (fun value => ?_) _).bind fun _ _ _ => .data h (isData_arrayN _)
    exact (hs.sismember_spec value).bind fun _ _ _ => trivial
  · exact .argc h _ (by decide)

/-! ### The two faults -/

/-- The faults of `exec_incrby` and `exec_decrby`. -/
theorem execStepBy_spec (h : Sound m (Tagged m) ht) (cmd : Command) (op : Int → Int → Int) :
    Ensures (execStepBy m ht cmd op) (Answers m ht) fun e =>
      Escapes m e ∨ e = .nullPointer ∧ NullStep m ht cmd.argv := by
  unfold execStepBy
  split
  · rename_i key arg hargv
    refine typed_spec (T := .STR_T) h rfl (fun _ => .inl) fun r hsearch hs => ?_
    have hget : htableGet m ht key = r.elim (.ok none) (fun a => do .ok (some (← a.value.asStr))) := by
      rw [htableGet, htableRead, hsearch, ok_bind]
      cases r <;> rfl
    cases r with
    | none =>
      rw [hget, Option.elim_none, ok_bind]
      cases hnum : isNumber arg with
      | true => exact (set_number_spec h key (strtoi arg)).mono (fun _ => id) fun _ => .inl
      | false => exact .inr ⟨rfl, key, arg, hargv, hsearch, hnum⟩
    | some a =>
      obtain ⟨⟨htag, htype⟩, hk⟩ := (hs.search_spec key).of_ok hsearch a rfl
      obtain ⟨res, hres⟩ := asStr_spec (htype hk ▸ htag : Holds m .STR_T a.value)
      rw [hget, Option.elim_some, hres, Value.asStr, ok_bind, ok_bind,
        if_neg fun hnone => absurd hnone.1 (Option.some_ne_none res)]
      refine .ite (fun _ => ?_) fun _ => .error h replyErrIntid_isError
      exact (set_number_spec h key _).mono (fun _ => id) fun _ => .inl
  · exact .argc h _ (by decide)

theorem NullStep.fault {cmd : Command} (h : NullStep m ht cmd.argv) (op : Int → Int → Int) :
    execStepBy m ht cmd op = .error .nullPointer := by
  obtain ⟨key, arg, hargv, hsearch, hnum⟩ := h
  have hget : htableGet m ht key = .ok none := by
    rw [htableGet, htableRead, hsearch]
    rfl
  unfold execStepBy
  rw [hargv]
  simp only [typed, htableType_eq hsearch, ok_bind, Option.elim_none, hget, hnum, Bool.false_eq_true, and_false,
    if_false, isNumberPtr, error_bind]
  rfl

theorem Readable.get (h : Readable m ht key) (hs : Sound m (Tagged m) ht) : ∃ r, htableGet m ht key = .ok r := by
  obtain ⟨r, hsearch, hr⟩ := h
  rw [htableGet, htableRead, hsearch, ok_bind]
  cases r with
  | none => exact ⟨none, rfl⟩
  | some a =>
    have htag := ((hs.search_spec key).of_ok hsearch a rfl).1
    obtain ⟨s, hv⟩ := asStr_spec (hr a rfl ▸ htag : Holds m .STR_T a.value)
    exact ⟨some s, by dsimp only; rw [hv]; rfl⟩

theorem Foreign.get (h : Foreign m ht key) (hs : Sound m (Tagged m) ht) :
    htableGet m ht key = .error .wrongType := by
  obtain ⟨⟨type, k, value⟩, hsearch, htype⟩ := h
  have htag : Holds m type value := ((hs.search_spec key).of_ok hsearch _ rfl).1
  rw [htableGet, htableRead, hsearch, ok_bind]
  cases htag with
  | str s => exact absurd rfl htype
  | hash h => rfl
  | list h hne => rfl
  | set h => rfl

theorem mget_spec (h : Sound m (Tagged m) ht) (keys : List Bytes) :
    Ensures (keys.mapM fun key => htableGet m ht key) (fun _ => True) fun e => Escapes m e ∨ e = .wrongType ∧
      ∃ pre key post, keys = pre ++ key :: post ∧ (∀ k ∈ pre, Readable m ht k) ∧ Foreign m ht key := by
  induction keys with
  | nil => trivial
  | cons key keys ih =>
    rw [List.mapM_cons]
    cases hsearch : htableSearch m ht key with
    | error e =>
      have hget : htableGet m ht key = .error e := by
        rw [htableGet, htableRead, hsearch]
        rfl
      rw [hget]
      exact .inl ((h.search_spec key).of_error hsearch)
    | ok r =>
      by_cases hr : ∀ a, r = some a → a.type = .STR_T
      · have hread : Readable m ht key := ⟨r, hsearch, hr⟩
        obtain ⟨b, hget⟩ := hread.get h
        rw [hget, ok_bind]
        refine (ih.mono (fun _ => id) ?_).bind fun _ _ _ => trivial
        rintro e (he | ⟨rfl, pre, k, post, rfl, hpre, hk⟩)
        · exact .inl he
        · exact .inr ⟨rfl, key :: pre, k, post, rfl, List.forall_mem_cons.mpr ⟨hread, hpre⟩, hk⟩
      · simp only [not_forall] at hr
        obtain ⟨a, rfl, htype⟩ := hr
        have hforeign : Foreign m ht key := ⟨a, hsearch, htype⟩
        rw [hforeign.get h]
        exact .inr ⟨rfl, [], key, keys, rfl, by simp, hforeign⟩

theorem execMget_spec (h : Sound m (Tagged m) ht) (cmd : Command) :
    Ensures (execMget m ht cmd) (Answers m ht) fun e =>
      Escapes m e ∨ e = .wrongType ∧ MixedKeys m ht cmd.argv := by
  unfold execMget
  split
  · rename_i key keys hargv
    refine typed_spec (T := .STR_T) h rfl (fun _ => .inl) fun r hsearch hs => ?_
    refine ((mget_spec h cmd.argv).mono (fun _ => id) ?_).bind fun _ _ _ => .data h (isData_arrayN _)
    rintro e (he | ⟨rfl, pre, k, post, heq, hpre, hk⟩)
    · exact .inl he
    · refine .inr ⟨rfl, pre, k, post, heq, ?_, hpre, hk⟩
      rintro rfl
      -- The first key has passed the guard.
      obtain ⟨rfl, -⟩ := List.cons_eq_cons.mp (hargv.symm.trans heq)
      obtain ⟨a, hfound, htype⟩ := hk
      obtain ⟨⟨-, hT⟩, hkey⟩ := (hs.search_spec key).of_ok hfound a rfl
      exact htype (hT hkey)
  · exact .argc h _ (by decide)

theorem mget_foreign (h : Sound m (Tagged m) ht) {pre : List Bytes} (hpre : ∀ k ∈ pre, Readable m ht k)
    (hk : Foreign m ht key) (post : List Bytes) :
    ((pre ++ key :: post).mapM fun key => htableGet m ht key) = .error .wrongType := by
  induction pre with
  | nil => rw [List.nil_append, List.mapM_cons, hk.get h, error_bind]
  | cons k pre ih =>
    obtain ⟨hfirst, hpre⟩ := List.forall_mem_cons.mp hpre
    obtain ⟨r, hget⟩ := hfirst.get h
    rw [List.cons_append, List.mapM_cons, hget, ok_bind, ih hpre, error_bind]

theorem MixedKeys.fault {cmd : Command} (hmix : MixedKeys m ht cmd.argv) (h : Sound m (Tagged m) ht) :
    execMget m ht cmd = .error .wrongType := by
  obtain ⟨pre, key, post, hargv, hne, hpre, hk⟩ := hmix
  obtain ⟨k, pre, rfl⟩ := List.exists_cons_of_ne_nil hne
  obtain ⟨r, hsearch, hr⟩ := hpre k (List.mem_cons_self ..)
  have htype : isType (r.elim (str "none") (typeName ·.type)) (str "string") = true := by
    cases r with
    | none => decide
    | some a => exact isType_typeName.mpr (hr a rfl)
  have hget := mget_foreign h hpre hk post
  unfold execMget
  rw [hargv]
  simp only [List.cons_append, typed, htableType_eq hsearch, ok_bind, htype, if_true] at hget ⊢
  rw [hget, error_bind]

end Commands
end MemKey
