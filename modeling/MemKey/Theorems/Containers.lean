import MemKey.Theorems.Enumeration
import MemKey.Theorems.Members
import MemKey.Theorems.Types

/-! Containers over runs of commands. As long as every entry that a resize moves finds a free slot, a container has an
    element that can be read, and its key goes exactly when a removal takes the last one or `DEL` names it. -/

namespace MemKey
open Probing Outcome Linked

/-- The container of the key has an element that can be read back. -/
inductive HasElement (m : IntMode) (ht : Keyspace) (key : Bytes) : ItemType → Prop
  | hash {field value : Bytes} (h : htableHget m ht key field = .ok (some value)) : HasElement m ht key .HASH_T
  | list {value : Bytes} (h : htableLindex m ht key 0 = .ok (some value)) : HasElement m ht key .LIST_T
  | set {value : Bytes} (h : htableSismember m ht key value = .ok true) : HasElement m ht key .SET_T

/-- `EXISTS` and `TYPE` do not find the key. -/
structure Missing (m : IntMode) (ht : Keyspace) (key : Bytes) : Prop where
  exists_ : Ensures (htableExists m ht key) (· = false) (Escapes m)
  type : Ensures (htableType m ht key) (· = str "none") (Escapes m)

/-- `DEL` of the key. -/
def Command.Deletes (key : Bytes) (cmd : Command) : Prop := cmd.type = .DEL ∧ key ∈ cmd.argv

/-- `SET` or `MSET` of the key. -/
inductive Command.Replaces (key : Bytes) : Command → Prop
  | set {args : List Bytes} (h : args.length ≤ 1) : Replaces key ⟨.SET, key :: args⟩
  | mset {argv : List Bytes} (harity : argv.length ≥ 2 ∧ argv.length % 2 = 0) (h : key ∈ (pairs argv).map (·.1)) :
      Replaces key ⟨.MSET, argv⟩

/-- A removal that takes all elements of the container that can be read. -/
inductive Exhausts (m : IntMode) (ht : Keyspace) (key : Bytes) : ItemType → Command → Prop
  | hdel {fields : List Bytes}
      (h : ∀ field value, htableHget m ht key field = .ok (some value) → field ∈ fields) :
      Exhausts m ht key .HASH_T ⟨.HDEL, key :: fields⟩
  | srem {values members : List Bytes} (hread : htableSmembers m ht key = .ok (some members))
      (h : members.Subperm values) : Exhausts m ht key .SET_T ⟨.SREM, key :: values⟩
  | pop {type : CommandType} (htype : type = .LPOP ∨ type = .RPOP) (h : htableLlen m ht key = .ok 1) :
      Exhausts m ht key .LIST_T ⟨type, [key]⟩
  | lrem {arg value : Bytes} {values : List Bytes} (hnum : isNumber arg = true)
      (hlen : htableLlen m ht key = .ok values.length)
      (hread : htableLrange m ht key 0 (values.length - 1) = .ok (some values)) (h : ∀ v ∈ values, v = value)
      (hcount : strtoi arg = 0 ∨ (values.length : Int) ≤ |strtoi arg|) :
      Exhausts m ht key .LIST_T ⟨.LREM, [key, arg, value]⟩

/-- What becomes of a key of type `T`: it goes, it becomes a string, or it stays what it was. -/
inductive Fate (m : IntMode) (ht' : Keyspace) (key : Bytes) (T : ItemType) (gone replaced : Prop) : Prop
  | goes (h : gone) (hr : ¬replaced) (habs : ∀ b ∈ ht'.entries, b.key ≠ key)
  | becomes {b : HashTableItem Value} (h : replaced) (hg : ¬gone) (hb : htableSearch m ht' key = .ok (some b))
      (htype : b.type = .STR_T)
  | stays {b : HashTableItem Value} (hg : ¬gone) (hr : ¬replaced) (hb : htableSearch m ht' key = .ok (some b))
      (htype : b.type = T)

/-! ### Elements -/

section Elements
variable {m : IntMode} {ht : Keyspace} {key : Bytes} {a : HashTableItem Value}

theorem Keyed.missing_iff (hk : Keyed m ht) : Missing m ht key ↔ ∀ a ∈ ht.entries, a.key ≠ key := by
  constructor
  · rintro h a ha rfl
    have hfound : htableExists m ht a.key = .ok true := by
      rw [htableExists, hk.search_iff.mpr ⟨ha, rfl⟩]
      rfl
    exact Bool.noConfusion (h.exists_.of_ok hfound)
  · intro habs
    have hnone : Ensures (htableSearch m ht key) (· = none) (Escapes m) := by
      refine (htableSearch_spec hk.1 key).post fun r hr => ?_
      rw [← Option.not_isSome_iff_eq_none, hr]
      rintro ⟨a, ha, hkey⟩
      exact habs a ha hkey
    refine ⟨hnone.bind fun r _ hr => ?_, hnone.bind fun r _ hr => ?_⟩
    · subst hr
      rfl
    · subst hr
      rfl

theorem Kept.hasElement (hk : Keyed m ht) (ha : a ∈ ht.entries) (h : Kept m a) (htype : a.type ≠ .STR_T) :
    HasElement m ht a.key a.type := by
  obtain ⟨htag, hhash, hset⟩ := h
  have hsearch := hk.search_iff.mpr ⟨ha, rfl⟩
  obtain ⟨type, key, v⟩ := a
  cases htag with
  | str s => exact absurd rfl htype
  | @hash tmp htmp =>
    obtain ⟨b, hb⟩ := List.exists_mem_of_ne_nil _ (hhash tmp rfl).ne_nil
    have hget : htableHget m ht key b.key = .ok (some b.value.text) := by
      rw [htableHget, htableRead_found hsearch]
      exact (mem_fields htmp).mp (List.mem_map.mpr ⟨b, hb, rfl⟩)
    exact .hash hget
  | @list ls cells hrep hne =>
    obtain ⟨c, cells, rfl⟩ := List.exists_cons_of_ne_nil hne
    rcases listIndex_spec hrep 0 with ⟨-, hnone⟩ | ⟨x, nd, hindex, hread, -⟩
    · cases hnone
    · have hget : htableLindex m ht key 0 = .ok (some nd.value) := by
        rw [htableLindex, htableRead_found hsearch]
        dsimp only
        rw [Value.asList, ok_bind, hindex, ok_bind]
        dsimp only
        rw [hread]
        rfl
      exact .list hget
  | @set st hst =>
    obtain ⟨k, hk⟩ := List.exists_mem_of_ne_nil _ (hset st rfl).ne_nil
    have hget : htableSismember m ht key k = .ok true := by
      rw [htableSismember, htableRead_found hsearch]
      exact setIsmember_mem hst hk
    exact .set hget

end Elements

/-! ### Runs of operations -/

/-- The operation leaves the type of a key of type `T`, and does not delete it. -/
def HtableOp.Preserves (T : ItemType) : HtableOp → Prop
  | set .. => T = .STR_T
  | hset .. | push .. | sadd .. | lset .. => True
  | del _ | pop .. | hdel .. | lrem .. | srem .. => False

section Runs
variable {m : IntMode} {ht ht' tmp : HashTable Value} {st : CSet} {key : Bytes} {a a' : HashTableItem Value}
  {op : HtableOp} {T : ItemType} {ops : List HtableOp}

theorem HtableOp.act_preserves {empty : Bool} (hop : op.Preserves a.type) (h : op.act m a = .ok (a', empty)) :
    empty = false ∧ a'.type = a.type := by
  cases op with
  | set key value =>
    cases h
    exact ⟨rfl, hop.symm⟩
  | hset | push | sadd | lset =>
    obtain ⟨_, -, ha', hempty⟩ := updated_eq_ok h
    exact ⟨hempty, by rw [ha']⟩
  | del | pop | hdel | lrem | srem => cases hop

/-- A run whose operations on the key all preserve its type leaves it with that type. -/
theorem run_stays (h : Sound m (Kept m) ht) (hal : Runs.Along (HtableOp.step m) (HtableOp.Moves m) ht ops)
    (hr : Runs.run (HtableOp.step m) ht ops = .ok ht') (ha : htableSearch m ht key = .ok (some a))
    (hops : ∀ op ∈ ops, op.key = key → op.Preserves a.type) :
    ∃ b, htableSearch m ht' key = .ok (some b) ∧ b.type = a.type := by
  refine (Runs.run_along (fun t => Sound m (Kept m) t ∧ ∃ b, htableSearch m t key = .ok (some b) ∧ b.type = a.type)
    hal hr ⟨h, a, ha, rfl⟩ ?_).2
  rintro t op hop t' ⟨ht, b, hb, htype⟩ hm hs
  refine ⟨ht.step_kept hm hs, ?_⟩
  by_cases hkey : op.key = key
  · subst hkey
    obtain ⟨b', empty, hact, hfound, -⟩ := HtableOp.step_own hs ht.keyed hb
    obtain ⟨hempty, htype'⟩ := HtableOp.act_preserves (htype.symm ▸ hops op hop rfl) hact
    exact ⟨b', hfound hempty, htype'.trans htype⟩
  · exact ⟨b, HtableOp.step_other hs ht.keyed hm (Ne.symm hkey) hb, htype⟩

theorem run_missing (hk : Keyed m ht) (hr : Runs.run (HtableOp.step m) ht ops = .ok ht')
    (habs : ∀ b ∈ ht.entries, b.key ≠ key) (hops : ∀ op ∈ ops, ¬op.Inserts) : ∀ b ∈ ht'.entries, b.key ≠ key := by
  refine (Runs.run_invariant (fun t => Keyed m t ∧ ∀ b ∈ t.entries, b.key ≠ key) hr ⟨hk, habs⟩ ?_).2
  rintro t op hop t' ⟨ht, habs⟩ hs
  exact ⟨(HtableOp.effect hs).keyed ht, HtableOp.step_missing hs ht (hops op hop) habs⟩

/-- The run of `DEL`. -/
theorem run_dels {keys : List Bytes} (h : Sound m (Kept m) ht)
    (hal : Runs.Along (HtableOp.step m) (HtableOp.Moves m) ht (keys.map .del))
    (hr : Runs.run (HtableOp.step m) ht (keys.map .del) = .ok ht') (ha : htableSearch m ht key = .ok (some a))
    (hmem : key ∈ keys) : ∀ b ∈ ht'.entries, b.key ≠ key := by
  induction keys generalizing ht with
  | nil => cases hmem
  | cons k keys ih =>
    obtain ⟨t, hs, hr⟩ := Runs.run_cons_eq_ok.mp hr
    have hnext := h.step_kept hal.1 hs
    by_cases hk : k = key
    · subst hk
      have hdel : (HtableOp.del k).step m ht = .ok t := hs
      obtain ⟨a', empty, hact, -, habs⟩ := HtableOp.step_own hdel h.keyed ha
      cases hact
      refine run_missing hnext.keyed hr (habs rfl) fun op hop => ?_
      obtain ⟨_, -, rfl⟩ := List.mem_map.mp hop
      exact id
    · have ha' := HtableOp.step_other hs h.keyed hal.1 (Ne.symm hk) ha
      exact ih hnext (hal.2 t hs) hr ha' ((List.mem_cons.mp hmem).resolve_left (Ne.symm hk))

/-- The run of `MSET`. -/
theorem run_sets {args : List (Bytes × Bytes)} (h : Sound m (Kept m) ht)
    (hal : Runs.Along (HtableOp.step m) (HtableOp.Moves m) ht (args.map fun p => .set p.1 p.2))
    (hr : Runs.run (HtableOp.step m) ht (args.map fun p => .set p.1 p.2) = .ok ht')
    (ha : htableSearch m ht key = .ok (some a)) (hmem : key ∈ args.map (·.1)) :
    ∃ b, htableSearch m ht' key = .ok (some b) ∧ b.type = .STR_T := by
  induction args generalizing ht a with
  | nil => cases hmem
  | cons p args ih =>
    obtain ⟨t, hs, hr⟩ := Runs.run_cons_eq_ok.mp hr
    have hnext := h.step_kept hal.1 hs
    by_cases hk : p.1 = key
    · subst hk
      have hset : (HtableOp.set p.1 p.2).step m ht = .ok t := hs
      obtain ⟨a', empty, hact, hfound, -⟩ := HtableOp.step_own hset h.keyed ha
      cases hact
      refine run_stays hnext (hal.2 t hs) hr (hfound rfl) fun op hop _ => ?_
      obtain ⟨_, -, rfl⟩ := List.mem_map.mp hop
      exact rfl
    · have ha' := HtableOp.step_other hs h.keyed hal.1 (Ne.symm hk) ha
      exact ih hnext (hal.2 t hs) hr ha' ((List.mem_cons.mp hmem).resolve_left (Ne.symm hk))

theorem erase_subperm {l args : List Bytes} {k : Bytes} : (l.erase k).Subperm args ↔ l.Subperm (k :: args) := by
  constructor
  · exact fun h => (List.subperm_cons_erase k l).trans ((List.subperm_cons k).mpr h)
  · intro h
    have herase := h.erase k
    rwa [List.erase_cons_head] at herase

/-- The fields of a hash and the members of a set. -/
def Value.names : Value → List Bytes
  | .hash tmp => tmp.entries.map HashTableItem.key
  | .set st => setMembers st
  | _ => []

/-- A removal takes the element and tells whether it was the last one. -/
structure HtableOp.Takes (m : IntMode) (k : Bytes) (op : HtableOp) (a : HashTableItem Value) : Prop where
  names : ∀ a' empty, op.act m a = .ok (a', empty) → a'.value.names.Perm (a.value.names.erase k)
  empty : ∀ a' empty, op.act m a = .ok (a', empty) → (empty = true ↔ a'.value.names = [])

theorem hdel_takes {field : Bytes} (ha : Kept m a) (hv : a.value = .hash tmp)
    (hm : tmp.ShrinkMoves m HashTableItem.key false field) : (HtableOp.hdel key field).Takes m field a := by
  have htmp : Sound m IsString tmp := (Holds.of_hash (hv ▸ ha.tagged : Holds m a.type (.hash tmp))).2
  have hw := htmp.keyed.1
  refine ⟨fun a' empty hact => ?_, fun a' empty hact => ?_⟩
  all_goals
    obtain ⟨tmp₁, tmp', res, hv₁, hdel, hv', rfl⟩ := HtableOp.act_hdel hact
    obtain rfl : tmp₁ = tmp := Value.hash.inj (hv₁.symm.trans hv)
    rw [hv']
  · rw [hv]
    exact hw.remove_keys hm hdel
  · rw [decide_eq_true_iff, hw.remove_counted (ha.hash tmp₁ hv).used hm hdel, Nat.cast_eq_zero,
      List.length_eq_zero_iff, Value.names, List.map_eq_nil_iff]

theorem srem_takes {value : Bytes} (ha : Kept m a) (hv : a.value = .set st) (hm : st.ShrinkMoves m id true value) :
    (HtableOp.srem key value).Takes m value a := by
  have hw : st.WF m id := (Holds.of_set (hv ▸ ha.tagged : Holds m a.type (.set st))).2
  refine ⟨fun a' empty hact => ?_, fun a' empty hact => ?_⟩
  all_goals
    obtain ⟨st₁, st', res, hv₁, hrem, hv', rfl⟩ := HtableOp.act_srem hact
    obtain rfl : st₁ = st := Value.set.inj (hv₁.symm.trans hv)
    rw [hv']
  · rw [hv]
    have hkeys := hw.remove_keys hm hrem
    rwa [List.map_id, List.map_id] at hkeys
  · rw [decide_eq_true_iff, hw.remove_counted (ha.set st₁ hv).used hm hrem, Nat.cast_eq_zero, List.length_eq_zero_iff]
    rfl

/-- The runs of `HDEL` and `SREM`. -/
theorem run_takes {f : Bytes → HtableOp} {args : List Bytes}
    (hf : ∀ k, (f k).key = key ∧ (f k).type = some T ∧ ¬(f k).Inserts)
    (htakes : ∀ t ix k b, (f k).Moves m t → htableFind m t key = .ok (some (ix, b)) → Kept m b → b.type = T →
      (f k).Takes m k b)
    (hne : ∀ b, Kept m b → b.type = T → b.value.names ≠ []) (h : Sound m (Kept m) ht)
    (hal : Runs.Along (HtableOp.step m) (HtableOp.Moves m) ht (args.map f))
    (hr : Runs.run (HtableOp.step m) ht (args.map f) = .ok ht') (ha : htableSearch m ht key = .ok (some a))
    (htype : a.type = T) :
    a.value.names.Subperm args ∧ (∀ b ∈ ht'.entries, b.key ≠ key) ∨
    ¬a.value.names.Subperm args ∧ ∃ b, htableSearch m ht' key = .ok (some b) ∧ b.type = T := by
  induction args generalizing ht a with
  | nil =>
    cases hr
    have hitem := h.items a (h.keyed.search_iff.mp ha).1
    exact .inr ⟨fun hsub => hne a hitem htype (List.subperm_nil.mp hsub), a, ha, htype⟩
  | cons k args ih =>
    obtain ⟨t, hs, hr⟩ := Runs.run_cons_eq_ok.mp hr
    have hnext := h.step_kept hal.1 hs
    obtain ⟨hkey, hT, hins⟩ := hf k
    obtain ⟨ix, hfind⟩ := htableFind_of_search ha
    have hitem := h.items a (h.keyed.search_iff.mp ha).1
    have htake := htakes _ ix k a hal.1 hfind hitem htype
    rw [← hkey] at ha
    obtain ⟨a', empty, hact, hfound, habs⟩ := HtableOp.step_own hs h.keyed ha
    rw [hkey] at hfound habs
    rw [← erase_subperm, ← (htake.names a' empty hact).subperm_right]
    cases empty with
    | true =>
      rw [(htake.empty a' true hact).mp rfl]
      refine .inl ⟨List.nil_subperm, run_missing hnext.keyed hr (habs rfl) fun op hop => ?_⟩
      obtain ⟨x, -, rfl⟩ := List.mem_map.mp hop
      exact (hf x).2.2
    | false =>
      have hown := HtableOp.act_own_type hitem.tagged hact
      exact ih hnext (hal.2 t hs) hr (hfound rfl) (Option.some.inj (hT.symm.trans hown)).symm

end Runs

/-! ### Removals of one element -/

section Removals
variable {m : IntMode} {ht ht' tmp : HashTable Value} {st : CSet} {ls : CList} {cells : List (ℕ × Bytes)}
  {key key₀ : Bytes} {a : HashTableItem Value} {T : ItemType} {names : List Bytes}

/-- The fields that can be read are those of the hash, each once. -/
theorem names_subperm_iff (hsearch : htableSearch m ht key = .ok (some a)) (hv : a.value = .hash tmp)
    (htmp : Sound m IsString tmp) : a.value.names.Subperm names ↔
      ∀ field value, htableHget m ht key field = .ok (some value) → field ∈ names := by
  have hget (field value : Bytes) :
      htableHget m ht key field = .ok (some value) ↔ (field, value) ∈ fields tmp := by
    rw [htableHget, htableRead_found hsearch, hv, mem_fields htmp]
    rfl
  rw [hv]
  constructor
  · intro hsub field value hfield
    obtain ⟨b, hb, heq⟩ := List.mem_map.mp ((hget field value).mp hfield)
    cases heq
    exact hsub.subset (List.mem_map.mpr ⟨b, hb, rfl⟩)
  · intro hall
    refine List.subperm_of_subset htmp.keyed.2 fun field hfield => ?_
    obtain ⟨b, hb, rfl⟩ := List.mem_map.mp hfield
    exact hall b.key b.value.text ((hget _ _).mpr (List.mem_map.mpr ⟨b, hb, rfl⟩))

theorem htableSmembers_eq (hsearch : htableSearch m ht key = .ok (some a)) (hv : a.value = .set st) :
    htableSmembers m ht key = .ok (some a.value.names) := by
  rw [htableSmembers, htableRead_found hsearch, hv]
  rfl

theorem htableLlen_eq (hsearch : htableSearch m ht key = .ok (some a)) (hv : a.value = .list ls) :
    htableLlen m ht key = .ok ls.len := by
  rw [htableLlen, htableRead_found hsearch, hv]
  rfl

theorem htableLrange_slice (hsearch : htableSearch m ht key = .ok (some a)) (htype : a.type = .LIST_T)
    (hv : a.value = .list ls) (hrep : Rep ls cells) {b e : ℕ} (hbe : b ≤ e) (he : e < cells.length) :
    htableLrange m ht key b e = .ok (some (((cells.drop b).take (e + 1 - b)).map Prod.snd)) := by
  have hlist : htableType m ht key = .ok (typeName a.type) := htableType_eq hsearch
  rw [htype] at hlist
  rw [htableLrange, hlist, ok_bind, if_pos (by decide), hsearch, ok_bind]
  dsimp only
  rw [hv, Value.asList, ok_bind, listRange_spec hrep hbe he]
  rfl

theorem htableLrange_eq (hsearch : htableSearch m ht key = .ok (some a)) (htype : a.type = .LIST_T)
    (hv : a.value = .list ls) (hrep : Rep ls cells) (hne : cells ≠ []) :
    htableLrange m ht key 0 (cells.length - 1) = .ok (some (cells.map Prod.snd)) := by
  have hpos := List.length_pos_iff.mpr hne
  have hrange := htableLrange_slice hsearch htype hv hrep (b := 0) (e := cells.length - 1) (Nat.zero_le _) (by omega)
  rwa [List.drop_zero, List.take_of_length_le (by omega), Nat.cast_zero, Nat.cast_sub hpos, Nat.cast_one] at hrange

theorem exhausts_hdel : Exhausts m ht key T ⟨.HDEL, key₀ :: names⟩ ↔ key₀ = key ∧ T = .HASH_T ∧
    ∀ field value, htableHget m ht key field = .ok (some value) → field ∈ names := by
  constructor
  · intro h
    cases h with
    | hdel h => exact ⟨rfl, rfl, h⟩
    | pop htype => simp at htype
  · rintro ⟨rfl, rfl, h⟩
    exact .hdel h

theorem exhausts_srem : Exhausts m ht key T ⟨.SREM, key₀ :: names⟩ ↔ key₀ = key ∧ T = .SET_T ∧
    ∃ members, htableSmembers m ht key = .ok (some members) ∧ members.Subperm names := by
  constructor
  · intro h
    cases h with
    | srem hread h => exact ⟨rfl, rfl, _, hread, h⟩
    | pop htype => simp at htype
  · rintro ⟨rfl, rfl, members, hread, h⟩
    exact .srem hread h

theorem exhausts_pop {type : CommandType} (htype : type = .LPOP ∨ type = .RPOP) :
    Exhausts m ht key T ⟨type, [key₀]⟩ ↔ key₀ = key ∧ T = .LIST_T ∧ htableLlen m ht key = .ok 1 := by
  constructor
  · intro h
    cases h with
    | pop _ h => exact ⟨rfl, rfl, h⟩
    | hdel | srem => simp at htype
  · rintro ⟨rfl, rfl, h⟩
    exact .pop htype h

theorem exhausts_lrem {arg value : Bytes} : Exhausts m ht key T ⟨.LREM, [key₀, arg, value]⟩ ↔
    key₀ = key ∧ T = .LIST_T ∧ isNumber arg = true ∧ ∃ values, htableLlen m ht key = .ok values.length ∧
      htableLrange m ht key 0 (values.length - 1) = .ok (some values) ∧ (∀ v ∈ values, v = value) ∧
      (strtoi arg = 0 ∨ (values.length : Int) ≤ |strtoi arg|) := by
  constructor
  · intro h
    cases h with
    | lrem hnum hlen hread h hcount => exact ⟨rfl, rfl, hnum, _, hlen, hread, h, hcount⟩
  · rintro ⟨rfl, rfl, hnum, values, hlen, hread, h, hcount⟩
    exact .lrem hnum hlen hread h hcount

/-- A pop empties a list of one element. -/
theorem pop_empties {dir : ListDirection} {a' : HashTableItem Value} {empty : Bool} (hv : a.value = .list ls)
    (hrep : Rep ls cells) (hne : cells ≠ []) (hact : (HtableOp.pop key dir).act m a = .ok (a', empty)) :
    empty = true ↔ ls.len = 1 := by
  obtain ⟨ls₁, ls', nd, hv₁, hpop, -, rfl⟩ := HtableOp.act_pop hact
  obtain rfl : ls₁ = ls := Value.list.inj (hv₁.symm.trans hv)
  obtain ⟨ls₂, cells', x, v, hpop', -, -, hlen⟩ := listPop_spec hrep hne dir
  cases hpop'.symm.trans hpop
  rw [decide_eq_true_iff]
  omega

/-- A removal of all occurrences, or of enough of them, empties a list that holds nothing else. -/
theorem lrem_empties {count : Int} {value : Bytes} {a' : HashTableItem Value} {empty : Bool} (hv : a.value = .list ls)
    (hrep : Rep ls cells) (hact : (HtableOp.lrem key count value).act m a = .ok (a', empty)) :
    empty = true ↔ (∀ v ∈ cells.map Prod.snd, v = value) ∧ (count = 0 ∨ (cells.length : Int) ≤ |count|) := by
  obtain ⟨ls₁, ls', res, hv₁, hrem, -, rfl⟩ := HtableOp.act_lrem hact
  obtain rfl : ls₁ = ls := Value.list.inj (hv₁.symm.trans hv)
  obtain ⟨ls₂, hrep', hrem'⟩ := listRem_spec hrep count value
  cases hrem'.symm.trans hrem
  rw [decide_eq_true_iff, hrep'.len, Nat.cast_eq_zero, List.length_eq_zero_iff, remaining_eq_nil]

end Removals

/-! ### Commands -/

section Commands
variable {m : IntMode} {ht ht' : Keyspace} {key key₀ : Bytes} {a : HashTableItem Value} {T : ItemType} {cmd : Command}
  {ops : List HtableOp} {op : HtableOp} {expected : String} {gone replaced : Prop}

theorem guarded_at (ha : htableSearch m ht key = .ok (some a)) (hexp : str expected = typeName T) :
    guarded m ht key expected ops = if a.type = T then ops else [] := by
  unfold guarded
  rw [htableType_eq ha, hexp]
  dsimp only [Option.elim]
  simp only [isType_typeName]

/-- A command that performs no operation on the key, or only such as preserve its type. -/
theorem Fate.of_stays (h : Sound m (Kept m) ht) (hal : Runs.Along (HtableOp.step m) (HtableOp.Moves m) ht ops)
    (hr : Runs.run (HtableOp.step m) ht ops = .ok ht') (ha : htableSearch m ht key = .ok (some a))
    (hops : ∀ op ∈ ops, op.key = key → op.Preserves a.type) (hg : ¬gone) (hrep : ¬replaced) :
    Fate m ht' key a.type gone replaced := by
  obtain ⟨b, hb, htype⟩ := run_stays h hal hr ha hops
  exact .stays hg hrep hb htype

/-- A command of one operation that does not insert. -/
theorem Fate.of_one (h : Sound m (Kept m) ht) (hr : Runs.run (HtableOp.step m) ht [op] = .ok ht')
    (ha : htableSearch m ht key = .ok (some a)) (hkey : op.key = key) (hop : ¬op.Inserts)
    (hgone : ∀ a' empty, op.act m a = .ok (a', empty) → (gone ↔ empty = true)) (hrep : ¬replaced) :
    Fate m ht' key a.type gone replaced := by
  subst hkey
  rw [Runs.run_one] at hr
  obtain ⟨a', empty, hact, hfound, habs⟩ := HtableOp.step_own hr h.keyed ha
  have hiff := hgone a' empty hact
  cases empty with
  | true => exact .goes (hiff.mpr rfl) hrep (habs rfl)
  | false =>
    refine .stays (fun hg => Bool.noConfusion (hiff.mp hg)) hrep (hfound rfl) ?_
    rw [HtableOp.act_item hact fun key value heq => hop (heq ▸ trivial)]

/-- A command whose operations on one key stand behind the guard. -/
theorem Fate.of_guarded (hexp : str expected = typeName T) (hkeys : ∀ op ∈ ops, op.key = key₀)
    (h : Sound m (Kept m) ht)
    (hal : Runs.Along (HtableOp.step m) (HtableOp.Moves m) ht (guarded m ht key₀ expected ops))
    (hr : Runs.run (HtableOp.step m) ht (guarded m ht key₀ expected ops) = .ok ht')
    (ha : htableSearch m ht key = .ok (some a)) (hgone : gone → key₀ = key ∧ a.type = T) (hrep : ¬replaced)
    (hown : key₀ = key → a.type = T → Runs.Along (HtableOp.step m) (HtableOp.Moves m) ht ops →
      Runs.run (HtableOp.step m) ht ops = .ok ht' → Fate m ht' key a.type gone replaced) :
    Fate m ht' key a.type gone replaced := by
  by_cases hk : key₀ = key
  · subst hk
    rw [guarded_at ha hexp] at hal hr
    by_cases htype : a.type = T
    · rw [if_pos htype] at hal hr
      exact hown rfl htype hal hr
    · rw [if_neg htype] at hal hr
      exact .of_stays h hal hr ha (by simp) (fun hg => htype (hgone hg).2) hrep
  · refine .of_stays h hal hr ha (fun op hop hkey => ?_) (fun hg => hk (hgone hg).1) hrep
    exact absurd ((hkeys op (mem_guarded hop).1).symm.trans hkey) hk

theorem HtableOp.preserves_str (h : op.Inserts) : op.Preserves .STR_T := by
  cases op with
  | set => rfl
  | hset | push | sadd => trivial
  | del | pop | hdel | lrem | srem | lset => cases h

theorem HtableOp.preserves_of_type (h : op.type = some .STR_T) : op.Preserves .STR_T := by
  cases op with
  | set => rfl
  | hset | push | sadd | del | pop | hdel | lrem | srem | lset => cases h

/-- The commands that perform no removal. -/
theorem ops_preserve (hcmd : cmd.type ∉ [.DEL, .HDEL, .LPOP, .RPOP, .LREM, .SREM]) :
    ∀ op ∈ cmd.ops m ht, op.Preserves .STR_T := by
  obtain ⟨type, argv⟩ := cmd
  simp only [List.mem_cons, List.not_mem_nil, or_false, not_or] at hcmd
  obtain ⟨hdel, hhdel, hlpop, hrpop, hlrem, hsrem⟩ := hcmd
  have hmap {α : Type} {f : α → HtableOp} {args : List α} (hf : ∀ x, (f x).Inserts) :
      ∀ op ∈ args.map f, op.Preserves .STR_T := by
    intro op hop
    obtain ⟨x, -, rfl⟩ := List.mem_map.mp hop
    exact HtableOp.preserves_str (hf x)
  have hguard {key : Bytes} {expected : String} {ops : List HtableOp} (hops : ∀ op ∈ ops, op.Preserves .STR_T) :
      ∀ op ∈ guarded m ht key expected ops, op.Preserves .STR_T := fun op hop => hops op (mem_guarded hop).1
  unfold Command.ops
  split
  · exact absurd ‹_› hdel
  · exact forall_mem_one rfl
  · exact forall_mem_one rfl
  · split
    · exact hmap fun _ => trivial
    · simp
  · exact hguard fun _ hop => HtableOp.preserves_of_type (mem_stepOps hop).2
  · exact hguard fun _ hop => HtableOp.preserves_of_type (mem_stepOps hop).2
  · exact hguard fun _ hop => HtableOp.preserves_of_type (mem_stepByOps hop).2
  · exact hguard fun _ hop => HtableOp.preserves_of_type (mem_stepByOps hop).2
  · split
    · exact hguard (hmap fun _ => trivial)
    · simp
  · exact absurd ‹_› hhdel
  · exact hguard (hmap fun _ => trivial)
  · exact hguard (hmap fun _ => trivial)
  · exact absurd ‹_› hlpop
  · exact absurd ‹_› hrpop
  · refine hguard fun op hop => ?_
    unfold lsetOps at hop
    split at hop
    · split at hop
      · obtain rfl := List.mem_singleton.mp hop
        trivial
      · cases hop
    · cases hop
  · exact absurd ‹_› hlrem
  · exact hguard (hmap fun _ => trivial)
  · exact absurd ‹_› hsrem
  · simp

theorem fate_del (keys : List Bytes) (h : Sound m (Kept m) ht)
    (hal : Runs.Along (HtableOp.step m) (HtableOp.Moves m) ht (keys.map .del))
    (hr : Runs.run (HtableOp.step m) ht (keys.map .del) = .ok ht') (ha : htableSearch m ht key = .ok (some a))
    (hgone : gone ↔ key ∈ keys) (hrep : ¬replaced) : Fate m ht' key a.type gone replaced := by
  by_cases hmem : key ∈ keys
  · exact .goes (hgone.mpr hmem) hrep (run_dels h hal hr ha hmem)
  · refine .of_stays h hal hr ha (fun op hop hkey => ?_) (fun hg => hmem (hgone.mp hg)) hrep
    obtain ⟨k, hk, rfl⟩ := List.mem_map.mp hop
    obtain rfl : k = key := hkey
    exact absurd hk hmem

theorem fate_set (args : List (Bytes × Bytes)) (h : Sound m (Kept m) ht)
    (hal : Runs.Along (HtableOp.step m) (HtableOp.Moves m) ht (args.map fun p => .set p.1 p.2))
    (hr : Runs.run (HtableOp.step m) ht (args.map fun p => .set p.1 p.2) = .ok ht')
    (ha : htableSearch m ht key = .ok (some a)) (hg : ¬gone) (hrep : replaced ↔ key ∈ args.map (·.1)) :
    Fate m ht' key a.type gone replaced := by
  by_cases hmem : key ∈ args.map (·.1)
  · obtain ⟨b, hb, htype⟩ := run_sets h hal hr ha hmem
    exact .becomes (hrep.mpr hmem) hg hb htype
  · refine .of_stays h hal hr ha (fun op hop hkey => ?_) hg fun hr => hmem (hrep.mp hr)
    obtain ⟨p, hp, rfl⟩ := List.mem_map.mp hop
    obtain rfl : p.1 = key := hkey
    exact absurd (List.mem_map.mpr ⟨p, hp, rfl⟩) hmem

theorem Kept.of_hash (h : Kept m a) (htype : a.type = .HASH_T) :
    ∃ tmp, a.value = .hash tmp ∧ Sound m IsString tmp ∧ tmp.Filled := by
  obtain ⟨tmp, hv, htmp⟩ := asHash_spec (htype ▸ h.tagged : Holds m .HASH_T a.value)
  exact ⟨tmp, hv, htmp, h.hash tmp hv⟩

theorem Kept.of_set (h : Kept m a) (htype : a.type = .SET_T) : ∃ st, a.value = .set st ∧ st.Filled := by
  obtain ⟨st, hv, -⟩ := asSet_spec (htype ▸ h.tagged : Holds m .SET_T a.value)
  exact ⟨st, hv, h.set st hv⟩

theorem Kept.of_list (h : Kept m a) (htype : a.type = .LIST_T) :
    ∃ ls cells, a.value = .list ls ∧ Rep ls cells ∧ cells ≠ [] :=
  asList_spec (htype ▸ h.tagged : Holds m .LIST_T a.value)

/-- `HDEL` and `SREM`. -/
theorem fate_takes {f : Bytes → HtableOp} (names : List Bytes) (hexp : str expected = typeName T)
    (hf : ∀ k, (f k).key = key₀ ∧ (f k).type = some T ∧ ¬(f k).Inserts)
    (htakes : ∀ t ix k b, (f k).Moves m t → htableFind m t key₀ = .ok (some (ix, b)) → Kept m b → b.type = T →
      (f k).Takes m k b)
    (hne : ∀ b, Kept m b → b.type = T → b.value.names ≠ []) (h : Sound m (Kept m) ht)
    (hal : Runs.Along (HtableOp.step m) (HtableOp.Moves m) ht (guarded m ht key₀ expected (names.map f)))
    (hr : Runs.run (HtableOp.step m) ht (guarded m ht key₀ expected (names.map f)) = .ok ht')
    (ha : htableSearch m ht key = .ok (some a)) (hgone : gone → key₀ = key ∧ a.type = T)
    (hiff : key₀ = key → a.type = T → (gone ↔ a.value.names.Subperm names)) (hrep : ¬replaced) :
    Fate m ht' key a.type gone replaced := by
  refine .of_guarded hexp (fun op hop => ?_) h hal hr ha hgone hrep ?_
  · obtain ⟨x, -, rfl⟩ := List.mem_map.mp hop
    exact (hf x).1
  · rintro rfl htype hal hr
    have hrun := run_takes hf htakes hne h hal hr ha htype
    rw [← hiff rfl htype] at hrun
    rcases hrun with ⟨hg, habs⟩ | ⟨hg, b, hb, hT⟩
    · exact .goes hg hrep habs
    · exact .stays hg hrep hb (hT.trans htype.symm)

theorem fate_hdel (names : List Bytes) (h : Sound m (Kept m) ht)
    (hal : Runs.Along (HtableOp.step m) (HtableOp.Moves m) ht (guarded m ht key₀ "hash" (names.map (.hdel key₀))))
    (hr : Runs.run (HtableOp.step m) ht (guarded m ht key₀ "hash" (names.map (.hdel key₀))) = .ok ht')
    (ha : htableSearch m ht key = .ok (some a))
    (hgone : gone ↔ Exhausts m ht key a.type ⟨.HDEL, key₀ :: names⟩) (hrep : ¬replaced) :
    Fate m ht' key a.type gone replaced := by
  rw [exhausts_hdel] at hgone
  refine fate_takes (f := .hdel key₀) (T := .HASH_T) names rfl (fun k => ⟨rfl, rfl, id⟩) ?_ ?_ h hal hr ha ?_ ?_ hrep
  · intro t ix k b hm hfind hkept hT
    obtain ⟨tmp, hv, -⟩ := hkept.of_hash hT
    exact hdel_takes hkept hv (hm.hash ix b hfind tmp hv)
  · intro b hkept hT
    obtain ⟨tmp, hv, -, hfilled⟩ := hkept.of_hash hT
    rw [hv]
    exact fun hnil => hfilled.ne_nil (List.map_eq_nil_iff.mp hnil)
  · intro hg
    obtain ⟨hk, htype, -⟩ := hgone.mp hg
    exact ⟨hk, htype⟩
  · intro hk htype
    obtain ⟨tmp, hv, htmp, -⟩ := (h.items a (h.keyed.search_iff.mp ha).1).of_hash htype
    rw [hgone, names_subperm_iff ha hv htmp]
    simp [hk, htype]

theorem fate_srem (values : List Bytes) (h : Sound m (Kept m) ht)
    (hal : Runs.Along (HtableOp.step m) (HtableOp.Moves m) ht (guarded m ht key₀ "set" (values.map (.srem key₀))))
    (hr : Runs.run (HtableOp.step m) ht (guarded m ht key₀ "set" (values.map (.srem key₀))) = .ok ht')
    (ha : htableSearch m ht key = .ok (some a))
    (hgone : gone ↔ Exhausts m ht key a.type ⟨.SREM, key₀ :: values⟩) (hrep : ¬replaced) :
    Fate m ht' key a.type gone replaced := by
  rw [exhausts_srem] at hgone
  refine fate_takes (f := .srem key₀) (T := .SET_T) values rfl (fun k => ⟨rfl, rfl, id⟩) ?_ ?_ h hal hr ha ?_ ?_ hrep
  · intro t ix k b hm hfind hkept hT
    obtain ⟨st, hv, -⟩ := hkept.of_set hT
    exact srem_takes hkept hv (hm.set ix b hfind st hv)
  · intro b hkept hT
    obtain ⟨st, hv, hfilled⟩ := hkept.of_set hT
    rw [hv]
    exact hfilled.ne_nil
  · intro hg
    obtain ⟨hk, htype, -⟩ := hgone.mp hg
    exact ⟨hk, htype⟩
  · intro hk htype
    obtain ⟨st, hv, -⟩ := (h.items a (h.keyed.search_iff.mp ha).1).of_set htype
    rw [hgone, htableSmembers_eq ha hv]
    simp [hk, htype]

theorem fate_pop {type : CommandType} (htype : type = .LPOP ∨ type = .RPOP) (dir : ListDirection)
    (h : Sound m (Kept m) ht)
    (hal : Runs.Along (HtableOp.step m) (HtableOp.Moves m) ht (guarded m ht key₀ "list" [.pop key₀ dir]))
    (hr : Runs.run (HtableOp.step m) ht (guarded m ht key₀ "list" [.pop key₀ dir]) = .ok ht')
    (ha : htableSearch m ht key = .ok (some a)) (hgone : gone ↔ Exhausts m ht key a.type ⟨type, [key₀]⟩)
    (hrep : ¬replaced) : Fate m ht' key a.type gone replaced := by
  rw [exhausts_pop htype] at hgone
  refine .of_guarded (T := .LIST_T) rfl (fun op hop => ?_) h hal hr ha (fun hg => ?_) hrep ?_
  · exact List.mem_singleton.mp hop ▸ rfl
  · obtain ⟨hk, hT, -⟩ := hgone.mp hg
    exact ⟨hk, hT⟩
  · rintro rfl hT - hr
    obtain ⟨ls, cells, hv, hrep', hne⟩ := (h.items a (h.keyed.search_iff.mp ha).1).of_list hT
    refine .of_one h hr ha rfl id (fun a' empty hact => ?_) hrep
    rw [hgone, pop_empties hv hrep' hne hact, htableLlen_eq ha hv]
    simp [hT]

theorem fate_lrem (arg value : Bytes) (h : Sound m (Kept m) ht)
    (hal : Runs.Along (HtableOp.step m) (HtableOp.Moves m) ht
      (guarded m ht key₀ "list" (if isNumber arg then [.lrem key₀ (strtoi arg) value] else [])))
    (hr : Runs.run (HtableOp.step m) ht
      (guarded m ht key₀ "list" (if isNumber arg then [.lrem key₀ (strtoi arg) value] else [])) = .ok ht')
    (ha : htableSearch m ht key = .ok (some a))
    (hgone : gone ↔ Exhausts m ht key a.type ⟨.LREM, [key₀, arg, value]⟩) (hrep : ¬replaced) :
    Fate m ht' key a.type gone replaced := by
  rw [exhausts_lrem] at hgone
  refine .of_guarded (T := .LIST_T) rfl (fun op hop => ?_) h hal hr ha (fun hg => ?_) hrep ?_
  · split at hop
    · exact List.mem_singleton.mp hop ▸ rfl
    · cases hop
  · obtain ⟨hk, hT, -⟩ := hgone.mp hg
    exact ⟨hk, hT⟩
  · rintro rfl hT hal hr
    obtain ⟨ls, cells, hv, hrep', hne⟩ := (h.items a (h.keyed.search_iff.mp ha).1).of_list hT
    cases hnum : isNumber arg with
    | false =>
      rw [hnum] at hal hr hgone
      exact .of_stays h hal hr ha (by simp) (fun hg => by simpa using hgone.mp hg) hrep
    | true =>
      rw [hnum] at hr
      refine .of_one h hr ha rfl id (fun a' empty hact => ?_) hrep
      rw [hgone, lrem_empties hv hrep' hact, htableLlen_eq ha hv, hrep'.len]
      have hrange := htableLrange_eq ha hT hv hrep' hne
      constructor
      · rintro ⟨-, -, -, values, hlen, hread, hall, hcount⟩
        have heq : (cells.length : Int) = values.length := Except.ok.inj hlen
        rw [← heq] at hread hcount
        obtain rfl : cells.map Prod.snd = values := Option.some.inj (Except.ok.inj (hrange.symm.trans hread))
        exact ⟨hall, hcount⟩
      · rintro ⟨hall, hcount⟩
        have hlen : (cells.map Prod.snd).length = cells.length := List.length_map _
        refine ⟨rfl, hT, hnum, cells.map Prod.snd, ?_⟩
        rw [hlen]
        exact ⟨rfl, hrange, hall, hcount⟩

theorem Fate.of_none (hr : Runs.run (HtableOp.step m) ht [] = .ok ht') (ha : htableSearch m ht key = .ok (some a))
    (hg : ¬gone) (hrep : ¬replaced) : Fate m ht' key a.type gone replaced := by
  cases hr
  exact .stays hg hrep ha rfl

theorem Exhausts.removal (h : Exhausts m ht key T cmd) : cmd.type ∈ [.HDEL, .LPOP, .RPOP, .LREM, .SREM] := by
  cases h with
  | hdel | srem | lrem => simp
  | pop htype => rcases htype with rfl | rfl <;> simp

theorem Command.Replaces.write (h : cmd.Replaces key) : cmd.type ∈ [.SET, .MSET] := by
  cases h with
  | set | mset => simp

theorem gone_iff_exhausts (hdel : cmd.type ≠ .DEL) :
    cmd.Deletes key ∨ Exhausts m ht key T cmd ↔ Exhausts m ht key T cmd :=
  or_iff_right fun h => hdel h.1

theorem write_not_gone (hwrite : cmd.type ∈ [.SET, .MSET]) : ¬(cmd.Deletes key ∨ Exhausts m ht key T cmd) := by
  simp only [List.mem_cons, List.not_mem_nil, or_false] at hwrite
  rintro (⟨hdel, -⟩ | hex)
  · simp [hdel] at hwrite
  · have hremoval := hex.removal
    rcases hwrite with h | h <;> simp [h] at hremoval

theorem replaces_set {args : List Bytes} :
    Command.Replaces key ⟨.SET, key₀ :: args⟩ ↔ key = key₀ ∧ args.length ≤ 1 := by
  constructor
  · rintro ⟨hlen⟩
    exact ⟨rfl, hlen⟩
  · rintro ⟨rfl, hlen⟩
    exact .set hlen

/-- A command that performs no removal and writes no string over its key. -/
theorem fate_other (h : Sound m (Kept m) ht) (hmeets : cmd.Meets m (HtableOp.Moves m) ht)
    (hr : Runs.run (HtableOp.step m) ht (cmd.ops m ht) = .ok ht') (ha : htableSearch m ht key = .ok (some a))
    (hremoval : cmd.type ∉ [.DEL, .HDEL, .LPOP, .RPOP, .LREM, .SREM]) (hwrite : cmd.type ∉ [.SET, .MSET]) :
    Fate m ht' key a.type (cmd.Deletes key ∨ Exhausts m ht key a.type cmd) (cmd.Replaces key) := by
  have hon : ∀ op ∈ cmd.ops m ht, op.OnType m ht :=
    cmd.ops_onType (fun h => hwrite (by simp [h])) fun h => hwrite (by simp [h])
  refine .of_stays h hmeets hr ha (fun op hop hk => ?_) ?_ fun hrep => hwrite hrep.write
  · have hpreserves := ops_preserve hremoval op hop
    obtain ⟨hmem, hkey⟩ := h.keyed.search_iff.mp ha
    cases op with
    | set k value => exact (hon _ hop).eq h.keyed hmem (hkey.trans hk.symm) rfl
    | hset | push | sadd | lset => trivial
    | del | pop | hdel | lrem | srem => cases hpreserves
  · rintro (⟨hdel, -⟩ | hex)
    · exact hremoval (by simp [hdel])
    · exact hremoval (List.mem_cons_of_mem _ hex.removal)

/-- A command with the wrong number of arguments changes nothing. -/
theorem fate_refused (hr : Runs.run (HtableOp.step m) ht [] = .ok ht') (ha : htableSearch m ht key = .ok (some a))
    (hex : ∀ T, ¬Exhausts m ht key T cmd) (hwrite : cmd.type ∉ [.SET, .MSET]) :
    Fate m ht' key a.type (Exhausts m ht key a.type cmd) (cmd.Replaces key) :=
  .of_none hr ha (hex a.type) fun hrep => hwrite hrep.write

/-- What becomes of a container when a command runs. -/
theorem command_fate (h : Sound m (Kept m) ht) (hmeets : cmd.Meets m (HtableOp.Moves m) ht)
    (hr : Runs.run (HtableOp.step m) ht (cmd.ops m ht) = .ok ht') (ha : htableSearch m ht key = .ok (some a)) :
    Fate m ht' key a.type (cmd.Deletes key ∨ Exhausts m ht key a.type cmd) (cmd.Replaces key) := by
  obtain ⟨type, argv⟩ := cmd
  cases type with
  | DEL =>
    refine fate_del argv h hmeets hr ha ⟨?_, fun hmem => .inl ⟨rfl, hmem⟩⟩ fun hrep => by simpa using hrep.write
    rintro (⟨-, hmem⟩ | hex)
    · exact hmem
    · simpa using hex.removal
  | SET =>
    have hg : ¬(Command.Deletes key ⟨.SET, argv⟩ ∨ Exhausts m ht key a.type ⟨.SET, argv⟩) :=
      write_not_gone (by simp)
    match argv with
    | [] => exact .of_none hr ha hg nofun
    | [k] => exact fate_set [(k, [])] h hmeets hr ha hg (by simp [replaces_set])
    | [k, value] => exact fate_set [(k, value)] h hmeets hr ha hg (by simp [replaces_set])
    | k :: _ :: _ :: _ => exact .of_none hr ha hg (by simp [replaces_set])
  | MSET =>
    have hg : ¬(Command.Deletes key ⟨.MSET, argv⟩ ∨ Exhausts m ht key a.type ⟨.MSET, argv⟩) :=
      write_not_gone (by simp)
    by_cases harity : argv.length ≥ 2 ∧ argv.length % 2 = 0
    · rw [Command.Meets, show Command.ops m ht ⟨.MSET, argv⟩ = _ from if_pos harity] at hmeets
      rw [show Command.ops m ht ⟨.MSET, argv⟩ = _ from if_pos harity] at hr
      refine fate_set (pairs argv) h hmeets hr ha hg ⟨?_, .mset harity⟩
      rintro ⟨⟩
      assumption
    · rw [show Command.ops m ht ⟨.MSET, argv⟩ = _ from if_neg harity] at hr
      refine .of_none hr ha hg ?_
      rintro ⟨⟩
      exact harity ‹_›
  | HDEL =>
    rw [gone_iff_exhausts (by simp)]
    match argv with
    | [] =>
      refine fate_refused hr ha ?_ (by simp)
      rintro T ⟨⟩
    | k :: names => exact fate_hdel names h hmeets hr ha Iff.rfl fun hrep => by simpa using hrep.write
  | SREM =>
    rw [gone_iff_exhausts (by simp)]
    match argv with
    | [] =>
      refine fate_refused hr ha ?_ (by simp)
      rintro T ⟨⟩
    | k :: values => exact fate_srem values h hmeets hr ha Iff.rfl fun hrep => by simpa using hrep.write
  | LPOP =>
    rw [gone_iff_exhausts (by simp)]
    match argv with
    | [] | _ :: _ :: _ =>
      refine fate_refused hr ha ?_ (by simp)
      rintro T ⟨⟩
    | [k] => exact fate_pop (.inl rfl) .LEFT h hmeets hr ha Iff.rfl fun hrep => by simpa using hrep.write
  | RPOP =>
    rw [gone_iff_exhausts (by simp)]
    match argv with
    | [] | _ :: _ :: _ =>
      refine fate_refused hr ha ?_ (by simp)
      rintro T ⟨⟩
    | [k] => exact fate_pop (.inr rfl) .RIGHT h hmeets hr ha Iff.rfl fun hrep => by simpa using hrep.write
  | LREM =>
    rw [gone_iff_exhausts (by simp)]
    match argv with
    | [_] =>
      refine fate_refused hr ha (fun T hex => ?_) (by simp)
      cases hex with
      | pop htype => simp at htype
    | [] | [_, _] | _ :: _ :: _ :: _ :: _ =>
      refine fate_refused hr ha ?_ (by simp)
      rintro T ⟨⟩
    | [k, arg, value] => exact fate_lrem arg value h hmeets hr ha Iff.rfl fun hrep => by simpa using hrep.write
  | _ => exact fate_other h hmeets hr ha (by simp) (by simp)

theorem typeName_inj {U : ItemType} : typeName T = typeName U ↔ T = U := by
  cases T <;> cases U <;> decide

theorem typeName_ne_none : str "none" ≠ typeName T := by
  cases T <;> decide

/-- The fate of a key as `EXISTS` and `TYPE` tell it. -/
theorem Fate.told (h : Fate m ht' key T gone replaced) (hk : Keyed m ht') (hT : T ≠ .STR_T) :
    (Missing m ht' key ↔ gone) ∧ (htableType m ht' key = .ok (typeName .STR_T) ↔ replaced) ∧
    (htableType m ht' key = .ok (typeName T) ↔ ¬gone ∧ ¬replaced) := by
  have hfound {b : HashTableItem Value} (hb : htableSearch m ht' key = .ok (some b)) :
      ¬Missing m ht' key ∧ htableType m ht' key = .ok (typeName b.type) := by
    obtain ⟨hmem, hkey⟩ := hk.search_iff.mp hb
    exact ⟨fun hmiss => hk.missing_iff.mp hmiss b hmem hkey, htableType_eq hb⟩
  cases h with
  | goes hg hr habs =>
    have hmiss := hk.missing_iff.mpr habs
    have htype (U : ItemType) : htableType m ht' key ≠ .ok (typeName U) := fun h =>
      typeName_ne_none (hmiss.type.of_ok h).symm
    simp [hmiss, hg, hr, htype]
  | becomes hr hg hb htype =>
    obtain ⟨hmiss, h⟩ := hfound hb
    rw [htype] at h
    simp [hmiss, hg, hr, h, typeName_inj, hT.symm]
  | stays hg hr hb htype =>
    obtain ⟨hmiss, h⟩ := hfound hb
    rw [htype] at h
    simp [hmiss, hg, hr, h, typeName_inj, hT]

/-- As long as every entry that a resize moves finds a free slot, every container has an element that can be read, and
    when a command runs, a container ceases to exist exactly if `DEL` names it or a removal takes its last element,
    becomes a string exactly if `SET` or `MSET` writes it, and else stays a container of its type. -/
theorem containers_not_empty
    (h : Runs.Reached (serve m) (htableInit htBaseSize) (Command.Meets m (HtableOp.Moves m)) ht) :
    (∀ key a, htableSearch m ht key = .ok (some a) → a.type ≠ .STR_T → HasElement m ht key a.type) ∧
    ∀ cmd ht' reply, cmd.Meets m (HtableOp.Moves m) ht → interpret m ht cmd = .ok (ht', reply) →
      ∀ key a, htableSearch m ht key = .ok (some a) → a.type ≠ .STR_T →
        (Missing m ht' key ↔ cmd.Deletes key ∨ Exhausts m ht key a.type cmd) ∧
        (htableType m ht' key = .ok (typeName .STR_T) ↔ cmd.Replaces key) ∧
        (htableType m ht' key = .ok (typeName a.type) ↔
          ¬(cmd.Deletes key ∨ Exhausts m ht key a.type cmd) ∧ ¬cmd.Replaces key) := by
  have hkept : Sound m (Kept m) ht :=
    (reached_ops h).invariant (Sound m (Kept m)) .init fun _ _ _ hs hm hstep => hs.step_kept hm hstep
  refine ⟨fun key a ha hT => ?_, fun cmd ht' reply hmeets hrun key a ha hT => ?_⟩
  · obtain ⟨hmem, rfl⟩ := hkept.keyed.search_iff.mp ha
    exact (hkept.items a hmem).hasElement hkept.keyed hmem hT
  · have hops := interpret_ops hrun
    exact (command_fate hkept hmeets hops ha).told (hkept.keyed.run hops) hT

end Commands

/-- `HSET h a 1` and `HDEL h a`. -/
theorem containers_not_empty_hdel : ∃ ht reply,
    interpret .wrap oneHash ⟨.HDEL, [str "h", str "a"]⟩ = .ok (ht, reply) ∧ Missing .wrap ht (str "h") := by
  have hmissing : htableFind .wrap (htableInit htBaseSize : Keyspace) (str "h") = .ok none := rfl
  have hset : Command.Meets .wrap (HtableOp.Moves .wrap) (htableInit htBaseSize)
      ⟨.HSET, [str "h", str "a", str "1"]⟩ := by
    refine ⟨⟨fun a _ _ => Table.init_growMoves, ?_, fun ix a hfind => ?_, fun ix a hfind => ?_⟩, fun _ _ => trivial⟩
    · rintro ⟨ix, a, hfind, -⟩
      cases hmissing.symm.trans hfind
    · cases hmissing.symm.trans hfind
    · cases hmissing.symm.trans hfind
  have hsearch : htableSearch .wrap oneHash (str "h") =
      .ok (some ⟨.HASH_T, str "h", .hash (oneString 0 (str "a") (str "1"))⟩) := rfl
  have hdel : Command.Meets .wrap (HtableOp.Moves .wrap) oneHash ⟨.HDEL, [str "h", str "a"]⟩ := by
    refine ⟨⟨fun a hcreate => ?_, fun _ => Table.small_shrinkMoves (by decide) rfl, ?_, ?_⟩, fun _ _ => trivial⟩
    · cases hcreate
    · rintro ix a hfind tmp hv
      have hfound : htableFind .wrap oneHash (str "h") =
        .ok (some (1, ⟨.HASH_T, str "h", .hash (oneString 0 (str "a") (str "1"))⟩)) := rfl
      cases hfound.symm.trans hfind
      cases hv
      exact Table.small_shrinkMoves (by decide) rfl
    · exact fun _ _ _ => trivial
  have hserve : serve .wrap (htableInit htBaseSize) ⟨.HSET, [str "h", str "a", str "1"]⟩ = .ok oneHash := rfl
  have hrun : interpret .wrap oneHash ⟨.HDEL, [str "h", str "a"]⟩ = .ok (⟨2, 0, [.null, .deleted]⟩, replyInteger 1) := rfl
  refine ⟨_, _, hrun, ?_⟩
  refine ((containers_not_empty (.step .init hset hserve)).2 _ _ _ hdel hrun _ _ hsearch (by decide)).1.mpr (.inr ?_)
  have htmp : Sound .wrap IsString (oneString 0 (str "a") (str "1")) := by
    have hmem := (oneHash_reached.sound.keyed.search_iff.mp hsearch).1
    exact (Holds.of_hash (oneHash_reached.sound.items _ hmem)).2
  exact .hdel ((names_subperm_iff hsearch rfl htmp).mp (List.Subperm.refl _))

/-- `HSET h d 1 i 2` drops `d`, so that `HDEL h i` leaves a hash without a field. -/
theorem container_empty : ∃ ht, Reachable .wrap ht ∧ htableType .wrap ht (str "h") = .ok (str "hash") ∧
    ¬HasElement .wrap ht (str "h") .HASH_T := by
  have hrun : (do
      let ht ← serve .wrap (htableInit htBaseSize) ⟨.HSET, [str "h", str "d", str "1", str "i", str "2"]⟩
      let ht ← serve .wrap ht ⟨.HDEL, [str "h", str "i"]⟩
      let type ← htableType .wrap ht (str "h")
      let item ← htableSearch .wrap ht (str "h")
      let tmp ← (item.elim (Value.str []) (·.value)).asHash
      .ok (type, (fields tmp).length)) = .ok (str "hash", 0) := by decide +kernel
  obtain ⟨ht₁, hset, hrun⟩ := bind_eq_ok.mp hrun
  obtain ⟨ht, hdel, hrun⟩ := bind_eq_ok.mp hrun
  obtain ⟨type, htype, hrun⟩ := bind_eq_ok.mp hrun
  obtain ⟨item, hsearch, hrun⟩ := bind_eq_ok.mp hrun
  obtain ⟨tmp, hhash, heq⟩ := bind_eq_ok.mp hrun
  obtain ⟨rfl, hlen⟩ := Prod.mk.inj (Except.ok.inj heq)
  have hreach : Reachable .wrap ht := .step (.step .init trivial hset) trivial hdel
  refine ⟨ht, hreach, htype, fun helement => ?_⟩
  cases item with
  | none => cases hhash
  | some a =>
    have hv : a.value = .hash tmp := asHash_eq_ok hhash
    have hmem := (hreach.sound.keyed.search_iff.mp hsearch).1
    have htag : Holds .wrap a.type a.value := hreach.sound.items a hmem
    cases helement with
    | @hash field value hget =>
      rw [htableHget, htableRead_found hsearch, hv] at hget
      have hfield := (mem_fields (hv ▸ htag).of_hash.2).mpr hget
      rw [List.eq_nil_of_length_eq_zero hlen] at hfield
      cases hfield

end MemKey
