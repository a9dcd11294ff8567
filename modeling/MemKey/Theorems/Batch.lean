import MemKey.Theorems.Enumeration

/-! The batched reads. `MGET`, `HMGET` and `SMISMEMBER` reply with one element for each name, which is the reply of
    `GET`, `HGET` or `SISMEMBER` as far as nil and 0 go; for a missing key `HMGET` and `SMISMEMBER` are gated, and
    reply with the empty array. -/

namespace MemKey
open Outcome Resp

/-- The batch replies with an array of one element for each name, which is `absent` exactly if the command for that
    name alone replies `absent`. -/
def Batched (m : IntMode) (ht : Keyspace) (absent : Scalar) (batch : Command) (alone : Bytes → Command)
    (names : List Bytes) : Prop :=
  Ensures (interpret m ht batch) (fun r => r.1 = ht ∧ ∃ l, r.2 = (Reply.array l).encode ∧
    List.Forall₂ (fun name c => ∃ s, interpret m ht (alone name) = .ok (ht, (Reply.scalar s).encode) ∧
      (c = absent ↔ s = absent)) names l) (Escapes m)

/-- The batch replies with the strings that the commands for the names alone reply. -/
def Gathers (m : IntMode) (ht : Keyspace) (batch : Command) (alone : Bytes → Command) (names : List Bytes) : Prop :=
  Ensures (interpret m ht batch) (fun r => r.1 = ht ∧ ∃ vals, r.2 = replyArrayN vals ∧
    List.Forall₂ (fun name v => interpret m ht (alone name) = .ok (ht, replyString v)) names vals) (Escapes m)

section Batch
variable {m : IntMode} {ht : Keyspace} {key name arg : Bytes} {names args : List Bytes} {absent : Scalar}
  {batch : Command} {alone : Bytes → Command} {a : HashTableItem Value}

theorem element_ne_nil (s : Bytes) : element s ≠ .nil := by
  unfold element
  split <;> simp

theorem cell_eq_nil {v : Option Bytes} : cell v = .nil ↔ single v = .nil := by
  cases v with
  | none => exact Iff.rfl
  | some s => exact iff_of_false (element_ne_nil s) (by simp [single])

/-- A flag is an integer in an array too, though it goes through its text. -/
theorem cell_flag (b : Bool) : cell (some (intostr (if b then 1 else 0))) = .int (if b then 1 else 0) := by
  cases b <;> decide

theorem batched_of_cells {f : Bytes → Except Fault (Option Bytes)}
    (hbatch : interpret m ht batch = do .ok (ht, replyArrayN (← names.mapM f)))
    (hcell : ∀ name ∈ names, Ensures (f name) (fun v => ∃ s,
      interpret m ht (alone name) = .ok (ht, (Reply.scalar s).encode) ∧ (cell v = absent ↔ s = absent)) (Escapes m)) :
    Batched m ht absent batch alone names := by
  rw [Batched, hbatch]
  refine (Ensures.mapM hcell).bind fun vals _ hvals => ⟨rfl, vals.map cell, replyArrayN_eq vals, ?_⟩
  exact List.forall₂_map_right_iff.mpr hvals

theorem gathers_of_reads {f : Bytes → Except Fault (Option Bytes)}
    (hbatch : interpret m ht batch = do .ok (ht, replyArrayN (← names.mapM f)))
    (hread : ∀ name ∈ names, Ensures (f name) (fun v => interpret m ht (alone name) = .ok (ht, replyString v)) (Escapes m)) :
    Gathers m ht batch alone names := by
  rw [Gathers, hbatch]
  exact (Ensures.mapM hread).bind fun vals _ hvals => ⟨rfl, vals, rfl, hvals⟩

theorem Gathers.batched (h : Gathers m ht batch alone names) : Batched m ht .nil batch alone names := by
  refine h.post fun r hr => ?_
  obtain ⟨hht, vals, hreply, hvals⟩ := hr
  refine ⟨hht, vals.map cell, hreply.trans (replyArrayN_eq vals), List.forall₂_map_right_iff.mpr (hvals.imp ?_)⟩
  exact fun name v hv => ⟨single v, by rw [hv, replyString_eq], cell_eq_nil⟩

/-! ### Strings -/

theorem interpret_get {v : Option Bytes} (htype : ∀ a, htableSearch m ht name = .ok (some a) → a.type = .STR_T)
    (hget : htableGet m ht name = .ok v) : interpret m ht ⟨.GET, [name]⟩ = .ok (ht, replyString v) := by
  obtain ⟨r, hsearch, -⟩ := bind_eq_ok.mp hget
  change typed m ht name "string" _ = _
  rw [typed_open (T := .STR_T) hsearch rfl fun a ha => htype a (ha ▸ hsearch), hget, ok_bind]

theorem mget_gathers (h : Sound m (Tagged m) ht) (hne : names ≠ [])
    (htypes : ∀ name ∈ names, ∀ a, htableSearch m ht name = .ok (some a) → a.type = .STR_T) :
    Gathers m ht ⟨.MGET, names⟩ (fun name => ⟨.GET, [name]⟩) names := by
  obtain ⟨key, args, rfl⟩ := List.exists_cons_of_ne_nil hne
  have hkey := htypes key List.mem_cons_self
  have hmget : interpret m ht ⟨.MGET, key :: args⟩ = typed m ht key "string"
      (do .ok (ht, replyArrayN (← (key :: args).mapM fun key => htableGet m ht key))) := rfl
  cases hsearch : htableSearch m ht key with
  | error e =>
    rw [Gathers, hmget, typed_error hsearch]
    exact (h.search_spec key).of_error hsearch
  | ok r =>
    rw [typed_open (T := .STR_T) hsearch rfl fun a ha => hkey a (ha ▸ hsearch)] at hmget
    refine gathers_of_reads hmget fun name hname => ?_
    have hread : Ensures (htableGet m ht name) (fun _ => True) (Escapes m) := by
      cases hs : htableSearch m ht name with
      | error e =>
        rw [htableGet, htableRead, hs]
        exact (h.search_spec name).of_error hs
      | ok r => exact (h.at_key hs fun a ha => htypes name hname a (ha ▸ hs)).get_spec
    exact hread.result fun v hv => interpret_get (htypes name hname) hv

/-! ### Hashes and sets -/

theorem exists_found (hsearch : htableSearch m ht key = .ok (some a)) : htableExists m ht key = .ok true := by
  rw [htableExists, hsearch]
  rfl

theorem exists_missing (hsearch : htableSearch m ht key = .ok none) : htableExists m ht key = .ok false := by
  rw [htableExists, hsearch]
  rfl

theorem interpret_hget {field : Bytes} {v : Option Bytes} (hsearch : htableSearch m ht key = .ok (some a))
    (htype : a.type = .HASH_T) (hget : htableHget m ht key field = .ok v) :
    interpret m ht ⟨.HGET, [key, field]⟩ = .ok (ht, replyString v) := by
  change typed m ht key "hash" _ = _
  rw [typed_found hsearch (by rw [htype]; rfl), hget, ok_bind]

theorem hmget_gathers (h : Sound m (Tagged m) ht) (hne : names ≠ []) (hsearch : htableSearch m ht key = .ok (some a))
    (htype : a.type = .HASH_T) : Gathers m ht ⟨.HMGET, key :: names⟩ (fun name => ⟨.HGET, [key, name]⟩) names := by
  obtain ⟨arg, args, rfl⟩ := List.exists_cons_of_ne_nil hne
  have hexp : str "hash" = typeName a.type := by rw [htype]; rfl
  have hs : Sound m (TaggedAt m key .HASH_T) ht := h.at_key hsearch fun b hb => Option.some.inj hb ▸ htype
  refine gathers_of_reads (f := fun field => htableHget m ht key field) ?_ fun name _ => ?_
  · change typed m ht key "hash" _ = _
    rw [typed_found hsearch hexp, exists_found hsearch, ok_bind, if_pos rfl]
  · exact (hs.hget_spec name).result fun v hv => interpret_hget hsearch htype hv

theorem smismember_batched (h : Sound m (Tagged m) ht) (hne : names ≠ [])
    (hsearch : htableSearch m ht key = .ok (some a)) (htype : a.type = .SET_T) :
    Batched m ht (.int 0) ⟨.SMISMEMBER, key :: names⟩ (fun name => ⟨.SISMEMBER, [key, name]⟩) names := by
  obtain ⟨arg, args, rfl⟩ := List.exists_cons_of_ne_nil hne
  have hexp : str "set" = typeName a.type := by rw [htype]; rfl
  have hs : Sound m (TaggedAt m key .SET_T) ht := h.at_key hsearch fun b hb => Option.some.inj hb ▸ htype
  refine batched_of_cells (f := fun value => do
    .ok (some (intostr (if ← htableSismember m ht key value then 1 else 0)))) ?_ fun name _ => ?_
  · change typed m ht key "set" _ = _
    rw [typed_found hsearch hexp, exists_found hsearch, ok_bind, if_pos rfl]
  · refine (hs.sismember_spec name).bind fun b hb _ => ⟨.int (if b then 1 else 0), ?_, by rw [cell_flag]⟩
    change typed m ht key "set" _ = _
    rw [typed_found hsearch hexp, hb, ok_bind, replyInteger_eq]

theorem hmget_missing (hne : names ≠ []) (hsearch : htableSearch m ht key = .ok none) :
    interpret m ht ⟨.HMGET, key :: names⟩ = .ok (ht, (Reply.array []).encode) := by
  obtain ⟨arg, args, rfl⟩ := List.exists_cons_of_ne_nil hne
  change typed m ht key "hash" _ = _
  rw [typed_missing hsearch, exists_missing hsearch, ok_bind, ← replyArray_none_eq]
  rfl

theorem smismember_missing (hne : names ≠ []) (hsearch : htableSearch m ht key = .ok none) :
    interpret m ht ⟨.SMISMEMBER, key :: names⟩ = .ok (ht, (Reply.array []).encode) := by
  obtain ⟨arg, args, rfl⟩ := List.exists_cons_of_ne_nil hne
  change typed m ht key "set" _ = _
  rw [typed_missing hsearch, exists_missing hsearch, ok_bind, ← replyArray_none_eq]
  rfl

/-- The batched reads agree with the single ones: `MGET` over strings and missing keys, `HMGET` and `SMISMEMBER` of an
    existing key. Of a missing key these reply with the empty array. -/
theorem batched_reads (h : Reachable m ht) (hne : names ≠ []) :
    ((∀ name ∈ names, ∀ a, htableSearch m ht name = .ok (some a) → a.type = .STR_T) →
      Batched m ht .nil ⟨.MGET, names⟩ (fun name => ⟨.GET, [name]⟩) names) ∧
    ∀ key, (∀ a, htableSearch m ht key = .ok (some a) →
        (a.type = .HASH_T → Batched m ht .nil ⟨.HMGET, key :: names⟩ (fun name => ⟨.HGET, [key, name]⟩) names) ∧
        (a.type = .SET_T →
          Batched m ht (.int 0) ⟨.SMISMEMBER, key :: names⟩ (fun name => ⟨.SISMEMBER, [key, name]⟩) names)) ∧
      (htableSearch m ht key = .ok none →
        interpret m ht ⟨.HMGET, key :: names⟩ = .ok (ht, (Reply.array []).encode) ∧
        interpret m ht ⟨.SMISMEMBER, key :: names⟩ = .ok (ht, (Reply.array []).encode)) := by
  refine ⟨fun htypes => (mget_gathers h.sound hne htypes).batched, fun key => ?_⟩
  refine ⟨fun a hsearch => ⟨?_, ?_⟩, fun hsearch => ⟨?_, ?_⟩⟩
  · exact fun htype => (hmget_gathers h.sound hne hsearch htype).batched
  · exact smismember_batched h.sound hne hsearch
  · exact hmget_missing hne hsearch
  · exact smismember_missing hne hsearch

end Batch

/-- `HMGET h a b` after `HSET h a 1`. -/
theorem batched_reads_hash :
    Batched .wrap oneHash .nil ⟨.HMGET, [str "h", str "a", str "b"]⟩ (fun name => ⟨.HGET, [str "h", name]⟩)
      [str "a", str "b"] :=
  ((batched_reads oneHash_reached (by decide)).2 (str "h")).1 _ rfl |>.1 rfl

/-- `HMGET` and `SMISMEMBER` of a missing key reply with the empty array. -/
theorem batch_of_missing_key : Reachable .wrap (htableInit htBaseSize) ∧
    htableSearch .wrap (htableInit htBaseSize : Keyspace) (str "a") = .ok none ∧
    ¬Batched .wrap (htableInit htBaseSize) .nil ⟨.HMGET, [str "a", str "b"]⟩ (fun name => ⟨.HGET, [str "a", name]⟩)
      [str "b"] ∧
    ¬Batched .wrap (htableInit htBaseSize) (.int 0) ⟨.SMISMEMBER, [str "a", str "b"]⟩
      (fun name => ⟨.SISMEMBER, [str "a", name]⟩) [str "b"] := by
  have hsearch : htableSearch .wrap (htableInit htBaseSize : Keyspace) (str "a") = .ok none := rfl
  refine ⟨.init, hsearch, fun h => ?_, fun h => ?_⟩
  · obtain ⟨-, l, hreply, hl⟩ := h.of_ok (hmget_missing (List.cons_ne_nil _ _) hsearch)
    have heq : (Reply.array []).encode = (Reply.array l).encode := hreply
    cases Reply.encode_inj.mp heq
    cases hl
  · obtain ⟨-, l, hreply, hl⟩ := h.of_ok (smismember_missing (List.cons_ne_nil _ _) hsearch)
    have heq : (Reply.array []).encode = (Reply.array l).encode := hreply
    cases Reply.encode_inj.mp heq
    cases hl

end MemKey
