import MemKey.Theorems.Counter

/-! A command with several elements is the sequence of its commands with one. The guard that a single command repeats
    lets every keyspace through that the loop passes: the key is missing there or has the type that it started with. -/

namespace MemKey
open Outcome

/-- The key is missing or has the type `T`. -/
def OfType (m : IntMode) (ht : Keyspace) (key : Bytes) (T : ItemType) : Prop :=
  ∀ a, htableSearch m ht key = .ok (some a) → a.type = T

/-- The commands with one element that a command stands for whose key is missing or of the right type. -/
inductive Variadic (m : IntMode) (ht : Keyspace) : Command → List Command → Prop
  | hset {key : Bytes} {args : List Bytes} (h : args.length ≥ 2 ∧ args.length % 2 = 0) (hT : OfType m ht key .HASH_T) :
      Variadic m ht ⟨.HSET, key :: args⟩ ((pairs args).map fun p => ⟨.HSET, [key, p.1, p.2]⟩)
  | hdel {key : Bytes} {args : List Bytes} (h : args ≠ []) (hT : OfType m ht key .HASH_T) :
      Variadic m ht ⟨.HDEL, key :: args⟩ (args.map fun field => ⟨.HDEL, [key, field]⟩)
  | sadd {key : Bytes} {args : List Bytes} (h : args ≠ []) (hT : OfType m ht key .SET_T) :
      Variadic m ht ⟨.SADD, key :: args⟩ (args.map fun value => ⟨.SADD, [key, value]⟩)
  | srem {key : Bytes} {args : List Bytes} (h : args ≠ []) (hT : OfType m ht key .SET_T) :
      Variadic m ht ⟨.SREM, key :: args⟩ (args.map fun value => ⟨.SREM, [key, value]⟩)
  | lpush {key : Bytes} {args : List Bytes} (h : args ≠ []) (hT : OfType m ht key .LIST_T) :
      Variadic m ht ⟨.LPUSH, key :: args⟩ (args.map fun value => ⟨.LPUSH, [key, value]⟩)
  | rpush {key : Bytes} {args : List Bytes} (h : args ≠ []) (hT : OfType m ht key .LIST_T) :
      Variadic m ht ⟨.RPUSH, key :: args⟩ (args.map fun value => ⟨.RPUSH, [key, value]⟩)
  | mset {argv : List Bytes} (h : argv.length ≥ 2 ∧ argv.length % 2 = 0) :
      Variadic m ht ⟨.MSET, argv⟩ ((pairs argv).map fun p => ⟨.MSET, [p.1, p.2]⟩)
  | del {argv : List Bytes} (h : argv ≠ []) : Variadic m ht ⟨.DEL, argv⟩ (argv.map fun key => ⟨.DEL, [key]⟩)

/-- The reply that the replies of the single commands add up to. -/
inductive Combines : CommandType → List Bytes → Bytes → Prop
  | sum {type : CommandType} (htype : type ∈ [.HSET, .HDEL, .SADD, .SREM, .DEL]) (xs : List Int) :
      Combines type (xs.map replyInteger) (replyInteger xs.sum)
  | last {type : CommandType} (htype : type ∈ [.LPUSH, .RPUSH]) (replies : List Bytes) (reply : Bytes) :
      Combines type (replies ++ [reply]) reply
  | ok (replies : List Bytes) : Combines .MSET replies (replyString (some (str "OK")))

/-- The keyspace after the steps. -/
def after {ρ : Type} (ht : Keyspace) (steps : List (Keyspace × ρ)) : Keyspace := steps.foldl (fun _ step => step.1) ht

/-- The command does what the commands do in order, and combines their replies. -/
structure RunsAs (m : IntMode) (ht : Keyspace) (cmd : Command) (cmds : List Command) : Prop where
  returns : ∀ steps, trace m ht cmds = .ok steps → ∃ reply, interpret m ht cmd = .ok (after ht steps, reply) ∧
    Combines cmd.type (steps.map (·.2)) reply
  fails : ∀ e, trace m ht cmds = .error e → interpret m ht cmd = .error e

/-- The results of a loop body for each argument in turn. -/
def results {α ρ : Type} (f : Keyspace → α → Except Fault (Keyspace × ρ)) (ht : Keyspace) :
    List α → Except Fault (List (Keyspace × ρ))
  | [] => .ok []
  | a :: as => do
    let r ← f ht a
    .ok (r :: (← results f r.1 as))

/-! ### Loops -/

section Loops
variable {m : IntMode} {ht : Keyspace} {key : Bytes} {α ρ : Type} {f : Keyspace → α → Except Fault (Keyspace × ρ)}
  {one : α → Command} {reply : ρ → Bytes} {I : Keyspace → Prop} {args : List α} {cmd : Command} {cmds : List Command}

/-- Where the single command is the loop body with its reply, a run of them is the loop. -/
theorem trace_results (reply : ρ → Bytes)
    (hone : ∀ ht a, I ht → interpret m ht (one a) = do let r ← f ht a; .ok (r.1, reply r.2))
    (hstep : ∀ ht a r, I ht → f ht a = .ok r → I r.1) (h : I ht) :
    trace m ht (args.map one) = (do .ok ((← results f ht args).map fun r => (r.1, reply r.2))) := by
  induction args generalizing ht with
  | nil => rfl
  | cons a args ih =>
    rw [List.map_cons, trace, results, hone ht a h]
    cases hf : f ht a with
    | error e => rfl
    | ok r =>
      rw [ok_bind, ok_bind, ok_bind, ih (hstep ht a r h hf)]
      cases results f r.1 args <;> rfl

theorem oksLoop_results {f : Keyspace → α → Except Fault (Keyspace × Bool)} (oks : Int) :
    oksLoop f ht oks args = (do
      let rs ← results f ht args
      .ok (after ht rs, oks + (rs.map fun r => if r.2 then (1 : Int) else 0).sum)) := by
  induction args generalizing ht oks with
  | nil =>
    rw [results, ok_bind, List.map_nil, List.sum_nil, Int.add_zero]
    rfl
  | cons a args ih =>
    rw [oksLoop, results]
    cases hf : f ht a with
    | error e => rfl
    | ok r =>
      rw [ok_bind, ok_bind]
      dsimp only
      rw [ih]
      cases hrs : results f r.1 args with
      | error e => rfl
      | ok rs =>
        rw [ok_bind, ok_bind, ok_bind, List.map_cons, List.sum_cons, Int.add_assoc]
        rfl

theorem pushLoop_results {args : List Bytes} {dir : ListDirection} (len : Int) :
    pushLoop m dir key ht len args = (do
      let rs ← results (fun ht a => htablePush m ht key a dir) ht args
      .ok (after ht rs, rs.foldl (fun _ r => r.2) len)) := by
  induction args generalizing ht len with
  | nil => rfl
  | cons a args ih =>
    rw [pushLoop, results]
    cases hf : htablePush m ht key a dir with
    | error e => rfl
    | ok r =>
      rw [ok_bind, ok_bind]
      dsimp only
      rw [ih]
      cases results (fun ht a => htablePush m ht key a dir) r.1 args <;> rfl

theorem runsAs_of_results (reply : ρ → Bytes) (total : List (Keyspace × ρ) → Bytes) (h : I ht)
    (hcmd : interpret m ht cmd = do let rs ← results f ht args; .ok (after ht rs, total rs))
    (hone : ∀ ht a, I ht → interpret m ht (one a) = do let r ← f ht a; .ok (r.1, reply r.2))
    (hstep : ∀ ht a r, I ht → f ht a = .ok r → I r.1)
    (hcomb : ∀ rs, results f ht args = .ok rs → Combines cmd.type (rs.map fun r => reply r.2) (total rs)) :
    RunsAs m ht cmd (args.map one) := by
  have htrace : trace m ht (args.map one) = _ := trace_results reply hone hstep h
  cases hrs : results f ht args with
  | error e =>
    rw [hrs] at hcmd htrace
    refine ⟨fun _ h => ?_, fun e' h => ?_⟩
    · cases htrace.symm.trans h
    · cases htrace.symm.trans h
      exact hcmd
  | ok rs =>
    rw [hrs] at hcmd htrace
    refine ⟨fun steps h => ?_, fun _ h => ?_⟩
    · cases htrace.symm.trans h
      refine ⟨total rs, hcmd.trans ?_, ?_⟩
      · rw [ok_bind, after, after, List.foldl_map]
      · rw [List.map_map]
        exact hcomb rs hrs
    · cases htrace.symm.trans h

/-! ### The guard -/

/-- A body that starts with a search for the key does not see the guard. -/
theorem typed_transparent {T : ItemType} {expected : String} {body : Exec} (hexp : str expected = typeName T)
    (hT : OfType m ht key T) (herr : ∀ e, htableSearch m ht key = .error e → body = .error e) :
    typed m ht key expected body = body := by
  cases hsearch : htableSearch m ht key with
  | error e => rw [typed_error hsearch, herr e hsearch]
  | ok r => exact typed_open hsearch hexp fun a ha => hT a (ha ▸ hsearch)

theorem OfType.tagged {T : ItemType} (hT : OfType m ht key T) (h : Sound m (Tagged m) ht) :
    Sound m (TaggedAt m key T) ht :=
  h.mono fun a ha htag => ⟨htag, fun hkey => hT a (h.keyed.search_iff.mpr ⟨ha, hkey⟩)⟩

theorem Sound.ofType {T : ItemType} (h : Sound m (TaggedAt m key T) ht) : OfType m ht key T := by
  intro a hsearch
  obtain ⟨⟨-, htype⟩, hkey⟩ := (h.search_spec key).of_ok hsearch a rfl
  exact htype hkey

/-! ### Commands that count -/

/-- The commands whose single reply is 1 or 0. -/
theorem oks_runsAs {f : Keyspace → α → Except Fault (Keyspace × Bool)} (h : I ht)
    (hcmd : interpret m ht cmd = do let (ht, oks) ← oksLoop f ht 0 args; .ok (ht, replyInteger oks))
    (hone : ∀ ht a, I ht → interpret m ht (one a) = do let (ht, oks) ← oksLoop f ht 0 [a]; .ok (ht, replyInteger oks))
    (hstep : ∀ ht a r, I ht → f ht a = .ok r → I r.1) (htype : cmd.type ∈ [.HSET, .HDEL, .SADD, .SREM, .DEL]) :
    RunsAs m ht cmd (args.map one) := by
  have hone' (ht : Keyspace) (a : α) (hI : I ht) : interpret m ht (one a) =
      (do let r ← f ht a; .ok (r.1, replyInteger (if r.2 then 1 else 0))) := by
    rw [hone ht a hI, oksLoop]
    cases f ht a with
    | error e => rfl
    | ok r =>
      rw [ok_bind, ok_bind]
      dsimp only
      rw [oksLoop, ok_bind, Int.zero_add]
  refine runsAs_of_results (fun ok : Bool => replyInteger (if ok then 1 else 0))
    (fun rs => replyInteger (rs.map fun r => if r.2 then (1 : Int) else 0).sum) h ?_ hone' hstep fun rs _ => ?_
  · rw [hcmd, oksLoop_results]
    cases results f ht args with
    | error e => rfl
    | ok rs => rw [ok_bind, ok_bind, ok_bind, Int.zero_add]
  · have hsum := Combines.sum htype (rs.map fun r => if r.2 then (1 : Int) else 0)
    rwa [List.map_map] at hsum

theorem guarded_oks {T : ItemType} {expected : String} {f : Keyspace → α → Except Fault (Keyspace × Bool)}
    (hexp : str expected = typeName T) (hT : OfType m ht key T)
    (herr : ∀ a e, htableSearch m ht key = .error e → f ht a = .error e) (hne : args ≠ []) :
    typed m ht key expected (do let (ht, oks) ← oksLoop f ht 0 args; .ok (ht, replyInteger oks)) =
      (do let (ht, oks) ← oksLoop f ht 0 args; .ok (ht, replyInteger oks)) := by
  refine typed_transparent hexp hT fun e he => ?_
  obtain ⟨a, args, rfl⟩ := List.exists_cons_of_ne_nil hne
  rw [oksLoop, herr a e he]
  rfl

/-- The same behind the guard. -/
theorem guarded_runsAs {T : ItemType} {expected : String} {f : Keyspace → α → Except Fault (Keyspace × Bool)}
    (hexp : str expected = typeName T) (h : Sound m (TaggedAt m key T) ht) (hne : args ≠ [])
    (hcmd : interpret m ht cmd =
      typed m ht key expected (do let (ht, oks) ← oksLoop f ht 0 args; .ok (ht, replyInteger oks)))
    (hone : ∀ ht a, interpret m ht (one a) =
      typed m ht key expected (do let (ht, oks) ← oksLoop f ht 0 [a]; .ok (ht, replyInteger oks)))
    (herr : ∀ ht a e, htableSearch m ht key = .error e → f ht a = .error e)
    (hstep : ∀ ht a, Sound m (TaggedAt m key T) ht →
      Ensures (f ht a) (fun r => Sound m (TaggedAt m key T) r.1) (Escapes m))
    (htype : cmd.type ∈ [.HSET, .HDEL, .SADD, .SREM, .DEL]) : RunsAs m ht cmd (args.map one) := by
  refine oks_runsAs (f := f) h ?_ (fun ht a hI => ?_) (fun ht a r hI hr => (hstep ht a hI).of_ok hr) htype
  · rw [hcmd, guarded_oks hexp h.ofType (herr ht) hne]
  · rw [hone, guarded_oks hexp hI.ofType (herr ht) (List.cons_ne_nil a [])]

theorem find_error {e : Fault} (h : htableSearch m ht key = .error e) : htableFind m ht key = .error e := by
  cases hfind : htableFind m ht key with
  | error e' =>
    rw [htableSearch, hfind] at h
    cases h
    rfl
  | ok r =>
    rw [htableSearch, hfind] at h
    cases h

theorem exists_error {β : Type} {x y : Except Fault β} {e : Fault} (h : htableSearch m ht key = .error e) :
    (do if ← htableExists m ht key then x else y) = .error e := by
  rw [htableExists, h]
  rfl

theorem shrink_error {act : Value → Except Fault (Value × Bool × ρ)} {missing : ρ} {e : Fault}
    (h : htableSearch m ht key = .error e) : htableShrink m ht key act missing = .error e := by
  rw [htableShrink, find_error h]
  rfl

/-! ### Pushes -/

theorem push_runsAs {type : CommandType} {dir : ListDirection} {args : List Bytes}
    (h : Sound m (TaggedAt m key .LIST_T) ht) (hne : args ≠ []) (htype : type ∈ [.LPUSH, .RPUSH])
    (hexec : ∀ ht argv, interpret m ht ⟨type, argv⟩ = execPush m ht ⟨type, argv⟩ dir) :
    RunsAs m ht ⟨type, key :: args⟩ (args.map fun value => ⟨type, [key, value]⟩) := by
  have hloop (ht : Keyspace) (args : List Bytes) (hI : Sound m (TaggedAt m key .LIST_T) ht) (hne : args ≠ []) :
      interpret m ht ⟨type, key :: args⟩ =
        (do let (ht, len) ← pushLoop m dir key ht 0 args; .ok (ht, replyInteger len)) := by
    obtain ⟨a, args, rfl⟩ := List.exists_cons_of_ne_nil hne
    rw [hexec]
    refine typed_transparent rfl hI.ofType fun e he => ?_
    rw [pushLoop, htablePush, exists_error he]
    rfl
  have hone (ht : Keyspace) (value : Bytes) (hI : Sound m (TaggedAt m key .LIST_T) ht) :
      interpret m ht ⟨type, [key, value]⟩ =
        (do let r ← htablePush m ht key value dir; .ok (r.1, replyInteger r.2)) := by
    rw [hloop ht [value] hI (List.cons_ne_nil _ _), pushLoop]
    cases htablePush m ht key value dir <;> rfl
  have hstep (ht : Keyspace) (value : Bytes) (r : Keyspace × Int) (hI : Sound m (TaggedAt m key .LIST_T) ht)
      (hr : htablePush m ht key value dir = .ok r) : Sound m (TaggedAt m key .LIST_T) r.1 :=
    (hI.push_spec value dir).of_ok hr
  refine runsAs_of_results replyInteger (fun rs => replyInteger (rs.foldl (fun _ r => r.2) 0)) h ?_ hone hstep
    fun rs hrs => ?_
  · rw [hloop ht args h hne, pushLoop_results]
    cases results (fun ht value => htablePush m ht key value dir) ht args <;> rfl
  · -- There is a last reply, as there is an argument.
    rcases List.eq_nil_or_concat rs with rfl | ⟨rs, r, rfl⟩
    · obtain ⟨a, args, rfl⟩ := List.exists_cons_of_ne_nil hne
      obtain ⟨r, -, hrest⟩ := bind_eq_ok.mp hrs
      obtain ⟨_, -, heq⟩ := bind_eq_ok.mp hrest
      cases heq
    · rw [List.concat_eq_append, List.map_append, List.foldl_append]
      exact .last htype _ _

/-! ### All commands -/

theorem pairs_ne_nil {args : List Bytes} (h : args.length ≥ 2) : pairs args ≠ [] := by
  match args, h with
  | a :: b :: rest, _ => exact List.cons_ne_nil _ _

theorem hset_runsAs {args : List Bytes} (h : Sound m (TaggedAt m key .HASH_T) ht)
    (harity : args.length ≥ 2 ∧ args.length % 2 = 0) :
    RunsAs m ht ⟨.HSET, key :: args⟩ ((pairs args).map fun p => ⟨.HSET, [key, p.1, p.2]⟩) := by
  refine guarded_runsAs (f := fun ht p => htableHset m ht key p.1 p.2) (T := .HASH_T) rfl h
    (pairs_ne_nil harity.1) ?_ (fun ht p => ?_) (fun ht p e he => exists_error he) (fun ht p hs => hs.hset_spec p.1 p.2)
    (by simp)
  · exact if_pos ⟨by simp [Command.argc, harity.1], by simp [Command.argc]; omega⟩
  · exact if_pos ⟨by simp [Command.argc], by simp [Command.argc]⟩

theorem mset_runsAs {argv : List Bytes} (harity : argv.length ≥ 2 ∧ argv.length % 2 = 0) :
    RunsAs m ht ⟨.MSET, argv⟩ ((pairs argv).map fun p => ⟨.MSET, [p.1, p.2]⟩) := by
  have hloop (ht : Keyspace) (argv : List Bytes) (harity : argv.length ≥ 2 ∧ argv.length % 2 = 0) :
      interpret m ht ⟨.MSET, argv⟩ = (do
        let rs ← results (fun ht p => htableSet m ht p.1 p.2) ht (pairs argv)
        .ok (after ht rs, replyString (some (str "OK")))) := by
    have hcmd : interpret m ht ⟨.MSET, argv⟩ = (do
        let r ← oksLoop (fun ht p => htableSet m ht p.1 p.2) ht 0 (pairs argv)
        .ok (r.1, replyString (str "OK"))) := if_pos harity
    rw [hcmd, oksLoop_results]
    cases results (fun ht p => htableSet m ht p.1 p.2) ht (pairs argv) <;> rfl
  have hone (ht : Keyspace) (p : Bytes × Bytes) (_ : True) : interpret m ht ⟨.MSET, [p.1, p.2]⟩ =
      (do let r ← htableSet m ht p.1 p.2; .ok (r.1, replyString (some (str "OK")))) := by
    rw [hloop ht [p.1, p.2] ⟨by simp, by simp⟩, pairs, pairs, results]
    · dsimp only
      cases htableSet m ht p.1 p.2 <;> rfl
    · simp
  exact runsAs_of_results (I := fun _ => True) (fun _ : Bool => replyString (some (str "OK"))) _ trivial
    (hloop ht argv harity) hone (fun _ _ _ _ _ => trivial) fun rs _ => .ok _

theorem del_runsAs {argv : List Bytes} (hne : argv ≠ []) :
    RunsAs m ht ⟨.DEL, argv⟩ (argv.map fun key => ⟨.DEL, [key]⟩) := by
  refine oks_runsAs (I := fun _ => True) trivial ?_ (fun ht key _ => rfl) (fun _ _ _ _ _ => trivial) (by simp)
  exact if_pos (List.length_pos_iff.mpr hne)

/-- A command with several elements leaves the state that its commands with one element leave in order, and replies
    with the sum of their replies, with the last one for a push, and with `OK` for `MSET`. -/
theorem variadic_is_sequence (h : Reachable m ht) (hv : Variadic m ht cmd cmds) : RunsAs m ht cmd cmds := by
  have oks {type : CommandType} {T : ItemType} {expected : String} {key : Bytes} {args : List Bytes}
      {f : Keyspace → Bytes → Bytes → Except Fault (Keyspace × Bool)} (hne : args ≠ []) (hT : OfType m ht key T)
      (hexp : str expected = typeName T)
      (hexec : ∀ ht argv, interpret m ht ⟨type, argv⟩ = execOks m ht ⟨type, argv⟩ expected f)
      (herr : ∀ ht a e, htableSearch m ht key = .error e → f ht key a = .error e)
      (hstep : ∀ ht a, Sound m (TaggedAt m key T) ht →
        Ensures (f ht key a) (fun r => Sound m (TaggedAt m key T) r.1) (Escapes m))
      (htype : type ∈ [.HSET, .HDEL, .SADD, .SREM, .DEL]) :
      RunsAs m ht ⟨type, key :: args⟩ (args.map fun arg => ⟨type, [key, arg]⟩) := by
    refine guarded_runsAs hexp (hT.tagged h.sound) hne ?_ (fun ht a => hexec ht _) herr hstep htype
    obtain ⟨a, args, rfl⟩ := List.exists_cons_of_ne_nil hne
    exact hexec ht _
  cases hv with
  | hset harity hT => exact hset_runsAs (hT.tagged h.sound) harity
  | hdel hne hT =>
    exact oks hne hT rfl (fun _ _ => rfl) (fun _ _ _ he => shrink_error he) (fun _ a hs => hs.hdel_spec a) (by simp)
  | sadd hne hT =>
    exact oks hne hT rfl (fun _ _ => rfl) (fun _ _ _ he => exists_error he) (fun _ a hs => hs.sadd_spec a) (by simp)
  | srem hne hT =>
    exact oks hne hT rfl (fun _ _ => rfl) (fun _ _ _ he => shrink_error he) (fun _ a hs => hs.srem_spec a) (by simp)
  | lpush hne hT => exact push_runsAs (hT.tagged h.sound) hne (by simp) fun _ _ => rfl
  | rpush hne hT => exact push_runsAs (hT.tagged h.sound) hne (by simp) fun _ _ => rfl
  | mset harity => exact mset_runsAs harity
  | del hne => exact del_runsAs hne

end Loops

/-- `HDEL h a b` after `HSET h a 1`: the key goes with the first field. -/
theorem variadic_is_sequence_hdel :
    RunsAs .wrap oneHash ⟨.HDEL, [str "h", str "a", str "b"]⟩
      [⟨.HDEL, [str "h", str "a"]⟩, ⟨.HDEL, [str "h", str "b"]⟩] := by
  have htype : OfType .wrap oneHash (str "h") .HASH_T := by
    intro a ha
    cases (show htableSearch .wrap oneHash (str "h") = _ from rfl).symm.trans ha
    rfl
  have hne : [str "a", str "b"] ≠ [] := List.cons_ne_nil _ _
  exact variadic_is_sequence oneHash_reached (.hdel hne htype)

end MemKey
