import MemKey.Theorems.Operations

/-! The types of the keys over runs of commands. Behind its guard a command works on a key that is missing or has
    the type it expects, and no operation gives an item that stays another type. -/

namespace MemKey
open Outcome

/-- The key of the operation is missing or has the type that the operation works on. -/
def HtableOp.OnType (m : IntMode) (ht : Keyspace) (op : HtableOp) : Prop :=
  ∀ T, op.type = some T → ∃ type, htableType m ht op.key = .ok type ∧ isType type (typeName T) = true

/-- Keys that both keyspaces have are of the same type in both. -/
def SameTypes (ht ht' : Keyspace) : Prop := ∀ a ∈ ht.entries, ∀ b ∈ ht'.entries, b.key = a.key → b.type = a.type

section Types
variable {m : IntMode} {ht ht₁ ht' : Keyspace} {key : Bytes} {op : HtableOp} {cmd : Command} {expected : String}
  {ops : List HtableOp} {T : ItemType} {a a' b : HashTableItem Value}

/-- What the guard has seen is the type of the item. -/
theorem HtableOp.OnType.eq (h : op.OnType m ht) (hk : Keyed m ht) (ha : a ∈ ht.entries) (hkey : a.key = op.key)
    (hT : op.type = some T) : a.type = T := by
  obtain ⟨type, htype, his⟩ := h T hT
  rw [htableType_eq (hk.search_iff.mpr ⟨ha, hkey⟩)] at htype
  obtain rfl : typeName a.type = type := Except.ok.inj htype
  exact isType_typeName.mp his

theorem SameTypes.refl (hk : Keyed m ht) : SameTypes ht ht := fun _ ha _ hb hkey =>
  congrArg HashTableItem.type (hk.2.eq_of_key hb ha hkey)

/-- An operation on the types that the keys have at the start of a run keeps them. -/
theorem SameTypes.step (h : SameTypes ht ht₁) (hk : Keyed m ht) (hk₁ : Keyed m ht₁) (hop : op.OnType m ht)
    (hs : op.step m ht₁ = .ok ht') : SameTypes ht ht' := by
  intro a ha c hc hkey
  rcases (HtableOp.change hs).mem hk₁ hc with hc | hcreate | ⟨ix, b, hfind, hact⟩
  · exact h a ha c hc hkey
  · have hck := (HtableOp.create_key hcreate).1
    exact (hop.eq hk ha (hkey.symm.trans hck) (HtableOp.create_type hcreate)).symm
  · have hbkey := htableFind_key hfind
    have hb : b ∈ ht₁.entries := Probing.mem_entries.mpr ⟨ix, (Table.find_some hfind).1⟩
    have hck := HtableOp.act_key hact hbkey
    rcases HtableOp.act_type hact with heq | hT
    · rw [heq]
      exact h a ha b hb (hbkey.trans (hck.symm.trans hkey))
    · exact (hop.eq hk ha (hkey.symm.trans hck) hT).symm

theorem SameTypes.run (hk : Keyed m ht) (hops : ∀ op ∈ ops, op.OnType m ht)
    (hr : Runs.run (HtableOp.step m) ht ops = .ok ht') : SameTypes ht ht' := by
  refine (Runs.run_invariant (fun t => Keyed m t ∧ SameTypes ht t) hr ⟨hk, .refl hk⟩ ?_).2
  rintro t op hop t' ⟨hkt, hsame⟩ hs
  exact ⟨(HtableOp.effect hs).keyed hkt, hsame.step hk hkt (hops op hop) hs⟩

/-! ### The guards -/

theorem guarded_onType (hexp : str expected = typeName T) (hops : ∀ op ∈ ops, op.key = key ∧ op.type = some T) :
    ∀ op ∈ guarded m ht key expected ops, op.OnType m ht := by
  intro op hop U hU
  obtain ⟨hmem, type, htype, his⟩ := mem_guarded hop
  obtain ⟨hkey, hT⟩ := hops op hmem
  obtain rfl : T = U := Option.some.inj (hT.symm.trans hU)
  exact ⟨type, by rw [hkey]; exact htype, by rw [← hexp]; exact his⟩

theorem guarded_map_onType {α : Type} {f : α → HtableOp} {args : List α} (hexp : str expected = typeName T)
    (hf : ∀ x, (f x).key = key ∧ (f x).type = some T) : ∀ op ∈ guarded m ht key expected (args.map f), op.OnType m ht := by
  refine guarded_onType hexp fun op hop => ?_
  obtain ⟨x, -, rfl⟩ := List.mem_map.mp hop
  exact hf x

theorem mem_stepOps {delta : Int} (h : op ∈ stepOps m ht key delta) : op.key = key ∧ op.type = some .STR_T := by
  unfold stepOps at h
  split at h
  · obtain rfl := List.mem_singleton.mp h
    exact ⟨rfl, rfl⟩
  · split at h
    · obtain rfl := List.mem_singleton.mp h
      exact ⟨rfl, rfl⟩
    · cases h
  · cases h

theorem mem_stepByOps {arg : Bytes} {f : Int → Int → Int} (h : op ∈ stepByOps m ht key arg f) :
    op.key = key ∧ op.type = some .STR_T := by
  unfold stepByOps at h
  split at h
  · split at h
    · obtain rfl := List.mem_singleton.mp h
      exact ⟨rfl, rfl⟩
    · cases h
  · split at h
    · obtain rfl := List.mem_singleton.mp h
      exact ⟨rfl, rfl⟩
    · cases h
  · cases h

theorem mem_lsetOps {arg value : Bytes} (h : op ∈ lsetOps m ht key arg value) :
    op.key = key ∧ op.type = some .LIST_T := by
  unfold lsetOps at h
  split at h
  · split at h
    · obtain rfl := List.mem_singleton.mp h
      exact ⟨rfl, rfl⟩
    · cases h
  · cases h

theorem del_onType (keys : List Bytes) : ∀ op ∈ keys.map HtableOp.del, op.OnType m ht := by
  intro op hop T hT
  obtain ⟨key, -, rfl⟩ := List.mem_map.mp hop
  cases hT

theorem forall_mem_one {P : HtableOp → Prop} (h : P op) : ∀ o ∈ [op], P o := by
  intro o ho
  obtain rfl := List.mem_singleton.mp ho
  exact h

/-- Every command but `SET` and `MSET` works on a key of its own type. -/
theorem Command.ops_onType (hset : cmd.type ≠ .SET) (hmset : cmd.type ≠ .MSET) :
    ∀ op ∈ cmd.ops m ht, op.OnType m ht := by
  obtain ⟨type, argv⟩ := cmd
  unfold Command.ops
  split
  · exact del_onType _
  · exact absurd ‹_› hset
  · exact absurd ‹_› hset
  · exact absurd ‹_› hmset
  · exact guarded_onType (T := .STR_T) rfl fun _ => mem_stepOps
  · exact guarded_onType (T := .STR_T) rfl fun _ => mem_stepOps
  · exact guarded_onType (T := .STR_T) rfl fun _ => mem_stepByOps
  · exact guarded_onType (T := .STR_T) rfl fun _ => mem_stepByOps
  · split
    · exact guarded_map_onType (T := .HASH_T) rfl fun _ => ⟨rfl, rfl⟩
    · simp
  · exact guarded_map_onType (T := .HASH_T) rfl fun _ => ⟨rfl, rfl⟩
  · exact guarded_map_onType (T := .LIST_T) rfl fun _ => ⟨rfl, rfl⟩
  · exact guarded_map_onType (T := .LIST_T) rfl fun _ => ⟨rfl, rfl⟩
  · exact guarded_onType (T := .LIST_T) rfl (forall_mem_one ⟨rfl, rfl⟩)
  · exact guarded_onType (T := .LIST_T) rfl (forall_mem_one ⟨rfl, rfl⟩)
  · exact guarded_onType (T := .LIST_T) rfl fun _ => mem_lsetOps
  · refine guarded_onType (T := .LIST_T) rfl ?_
    split
    · exact forall_mem_one ⟨rfl, rfl⟩
    · simp
  · exact guarded_map_onType (T := .SET_T) rfl fun _ => ⟨rfl, rfl⟩
  · exact guarded_map_onType (T := .SET_T) rfl fun _ => ⟨rfl, rfl⟩
  · simp

theorem Keyed.run (hk : Keyed m ht) (hr : Runs.run (HtableOp.step m) ht ops = .ok ht') : Keyed m ht' :=
  Runs.run_invariant (Keyed m) hr hk fun _ _ _ _ hk hs => (HtableOp.effect hs).keyed hk

theorem Keyed.types (hk : Keyed m ht) (hset : cmd.type ≠ .SET) (hmset : cmd.type ≠ .MSET)
    (hr : Runs.run (HtableOp.step m) ht (cmd.ops m ht) = .ok ht') (ha : htableSearch m ht key = .ok (some a))
    (hb : htableSearch m ht' key = .ok (some b)) : b.type = a.type := by
  have hsame : SameTypes ht ht' := .run hk (cmd.ops_onType hset hmset) hr
  obtain ⟨hmem, hkey⟩ := hk.search_iff.mp ha
  obtain ⟨hmem', hkey'⟩ := (hk.run hr).search_iff.mp hb
  exact hsame a hmem b hmem' (hkey'.trans hkey.symm)

/-- A command that is allowed to change the type of the key: it writes a string, or the key does not exist. -/
def MayRetype (m : IntMode) (ht : Keyspace) (key : Bytes) (cmd : Command) : Prop :=
  cmd.type = .SET ∨ cmd.type = .MSET ∨ htableExists m ht key ≠ .ok true

/-- A key keeps its type over a run whose commands may not change it. -/
theorem reached_type (h : Sound m (Tagged m) ht) (ha : htableSearch m ht key = .ok (some a))
    (hreach : Runs.Reached (serve m) ht (fun ht cmd => ¬MayRetype m ht key cmd) ht')
    (hb : htableSearch m ht' key = .ok (some b)) : b.type = a.type := by
  induction hreach generalizing b with
  | init =>
    obtain rfl := Option.some.inj (Except.ok.inj (ha.symm.trans hb))
    rfl
  | @step t t' cmd hrun hkeep hserve ih =>
    simp only [MayRetype, not_or, not_not] at hkeep
    obtain ⟨hset, hmset, hexists⟩ := hkeep
    obtain ⟨r, hsearch, hsome⟩ := bind_eq_ok.mp hexists
    obtain ⟨c, rfl⟩ := Option.isSome_iff_exists.mp (Except.ok.inj hsome)
    have hk : Keyed m t := hrun.invariant (Keyed m) h.keyed fun _ _ _ hk _ hs => hk.run (serve_ops hs)
    exact (hk.types hset hmset (serve_ops hserve) hsearch hb).trans (ih hsearch)

/-- No command but `SET` and `MSET` changes the type of a key that it leaves in the keyspace, the entries of a
    hash are strings, and over a run a key keeps its type until it is set or has ceased to exist. -/
theorem types_stable (h : Reachable m ht) :
    (∀ cmd ht' reply, cmd.type ≠ .SET → cmd.type ≠ .MSET → interpret m ht cmd = .ok (ht', reply) → ∀ key a b,
      htableSearch m ht key = .ok (some a) → htableSearch m ht' key = .ok (some b) → b.type = a.type) ∧
    (∀ a ∈ ht.entries, ∀ tmp, a.value = .hash tmp → ∀ b ∈ tmp.entries, IsString b) ∧
    ∀ key ht', Runs.Reached (serve m) ht (fun ht cmd => ¬MayRetype m ht key cmd) ht' → ∀ a b,
      htableSearch m ht key = .ok (some a) → htableSearch m ht' key = .ok (some b) → b.type = a.type := by
  refine ⟨fun cmd ht' reply hset hmset hrun key a b ha hb => ?_, fun a ha tmp hv b hb => ?_, ?_⟩
  · exact h.sound.keyed.types hset hmset (interpret_ops hrun) ha hb
  · have htag : Holds m a.type a.value := h.sound.items a ha
    rw [hv] at htag
    exact htag.of_hash.2.items b hb
  · exact fun key ht' hreach a b ha hb => reached_type h.sound ha hreach hb

end Types

/-- `HSET h a 2` on a hash. -/
theorem types_stable_hash : ∃ ht b,
    interpret .wrap oneHash ⟨.HSET, [str "h", str "a", str "2"]⟩ = .ok (ht, replyInteger 0) ∧
    htableSearch .wrap ht (str "h") = .ok (some b) ∧ b.type = .HASH_T := by
  have hrun : interpret .wrap oneHash ⟨.HSET, [str "h", str "a", str "2"]⟩ =
      .ok (⟨2, 1, [.null, .live ⟨.HASH_T, str "h", .hash (oneString 0 (str "a") (str "2"))⟩]⟩, replyInteger 0) := rfl
  exact ⟨_, _, hrun, rfl,
    (types_stable oneHash_reached).1 _ _ _ (by decide) (by decide) hrun (str "h") _ _ rfl rfl⟩

end MemKey
