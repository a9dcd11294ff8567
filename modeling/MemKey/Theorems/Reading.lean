import MemKey.Theorems.Lossless
import MemKey.Theorems.Indices
import MemKey.Theorems.Batch

/-! The reads of a keyspace that stands for a store: each gives what the store holds. -/

namespace MemKey
open Probing Outcome Listing Resp

section Reading
variable {m : IntMode} {ht : Keyspace} {s : Store} {key field value : Bytes} {ρ : Type} {Q : ρ → Prop}
  {f : Finmap fun _ : Bytes => Bytes} {l : List Bytes} {t : Finset Bytes} {v : Option Bytes} {tmp : HashTable Value}

/-! ### Keys -/

theorem Maps.missing (h : Represents m ht s) (hc : s.lookup key = none) :
    Ensures (htableSearch m ht key) (· = none) (Escapes m) := by
  refine (h.search_spec key).post fun r hr => ?_
  rcases hr with ⟨rfl, -⟩ | ⟨a, c, rfl, -, hsome, -⟩
  · rfl
  · cases hc.symm.trans hsome

theorem Maps.exists_spec (h : Represents m ht s) (key : Bytes) :
    Ensures (htableExists m ht key) (fun b => b = true ↔ key ∈ s) (Escapes m) := by
  refine (h.search_spec key).bind fun r _ hr => ?_
  rcases hr with ⟨rfl, hnone⟩ | ⟨a, c, rfl, -, hsome, -⟩
  · exact iff_of_false (by simp) (Finmap.lookup_eq_none.mp hnone)
  · exact iff_of_true rfl (Finmap.mem_of_lookup_eq_some hsome)

theorem Maps.type_spec (h : Represents m ht s) (key : Bytes) :
    Ensures (htableType m ht key) (· = (s.lookup key).elim (str "none") fun c => typeName c.type) (Escapes m) := by
  refine (h.search_spec key).bind fun r _ hr => ?_
  rcases hr with ⟨rfl, hnone⟩ | ⟨a, c, rfl, -, hsome, hshows⟩
  · rw [hnone]
    rfl
  · rw [hsome]
    exact congrArg typeName hshows.type

theorem Maps.read_spec (h : Represents m ht s) {act : Value → Except Fault ρ} {missing : ρ}
    (hmissing : s.lookup key = none → Q missing)
    (hact : ∀ c a, s.lookup key = some c → Shows m a c → Ensures (act a.value) Q (Escapes m)) :
    Ensures (htableRead m ht key act missing) Q (Escapes m) := by
  refine (h.search_spec key).bind fun r _ hr => ?_
  rcases hr with ⟨rfl, hnone⟩ | ⟨a, c, rfl, -, hsome, hshows⟩
  · exact hmissing hnone
  · exact hact c a hsome hshows

theorem Maps.get_spec (h : Represents m ht s) (hv : Content.asStr (s.lookup key) = some v) :
    Ensures (htableGet m ht key) (· = v) (Escapes m) := by
  have hlookup := asStr_eq_some.mp hv
  refine h.read_spec (fun hnone => ?_) fun c a hsome hshows => ?_
  · cases v with
    | none => rfl
    | some x => cases hnone.symm.trans hlookup
  · cases v with
    | none => cases hlookup.symm.trans hsome
    | some x =>
      obtain rfl : Content.str x = c := Option.some.inj (hlookup.symm.trans hsome)
      rw [hshows.of_str]
      rfl

/-! ### Hashes -/

theorem Maps.sound (h : Maps m Entry tmp f) : Sound m IsString tmp :=
  ⟨h.keyed, fun a ha => (h.items.entry a ha).elim fun v hv => ⟨hv.2.1, v, hv.2.2⟩⟩

theorem Maps.field_spec (h : Maps m Entry tmp f) (field : Bytes) :
    Ensures (htableGet m tmp field) (· = f.lookup field) (Escapes m) := by
  refine (h.search_spec field).bind fun r _ hr => ?_
  rcases hr with ⟨rfl, hnone⟩ | ⟨a, v, rfl, -, hsome, -, hv⟩
  · exact hnone.symm
  · dsimp only
    rw [hv, hsome]
    rfl

theorem Maps.hget_spec (h : Represents m ht s) (hv : Content.asHash (s.lookup key) = some f) (field : Bytes) :
    Ensures (htableHget m ht key field) (· = f.lookup field) (Escapes m) := by
  refine h.read_spec (fun hnone => ?_) fun c a hsome hshows => ?_
  · rw [asHash_none hv hnone, Finmap.lookup_empty]
  · obtain rfl := asHash_some hv hsome
    obtain ⟨tmp, ha, hmaps, -⟩ := hshows.of_hash
    rw [ha]
    exact hmaps.field_spec field

theorem Maps.hlen_spec (h : Represents m ht s) (hv : Content.asHash (s.lookup key) = some f) :
    Ensures (htableHlen m ht key) (· = f.keys.card) (Escapes m) := by
  refine h.read_spec (fun hnone => ?_) fun c a hsome hshows => ?_
  · rw [asHash_none hv hnone]
    rfl
  · obtain rfl := asHash_some hv hsome
    obtain ⟨tmp, ha, hmaps, -⟩ := hshows.of_hash
    rw [ha]
    exact hmaps.used

/-- The fields of a hash, in the order of its slots. -/
theorem Maps.bindings (h : Maps m Entry tmp f) : Bindings (fields tmp) f := by
  refine h.items.map (fun a => rfl) fun a _ v hv => ?_
  rw [hv.2]
  rfl

/-- One of the loops over a hash. -/
theorem Maps.loop_spec (h : Represents m ht s) (hv : Content.asHash (s.lookup key) = some f)
    {act : Value → Except Fault (Option (List Bytes))} {out : Bytes × Bytes → List Bytes}
    (hact : ∀ tmp, Maps m Entry tmp f → act (.hash tmp) = .ok (some ((fields tmp).flatMap out))) :
    Ensures (htableRead m ht key act none)
      (fun r => ∃ l, Bindings l f ∧ replyArray r = (Reply.array ((l.flatMap out).map element)).encode) (Escapes m) := by
  refine h.read_spec (fun hnone => ?_) fun c a hsome hshows => ?_
  · rw [asHash_none hv hnone]
    exact ⟨[], .nil, replyArray_none_eq⟩
  · obtain rfl := asHash_some hv hsome
    obtain ⟨tmp, ha, hmaps, -⟩ := hshows.of_hash
    rw [ha, hact tmp hmaps]
    exact ⟨fields tmp, hmaps.bindings, replyArray_some_eq _⟩

theorem Maps.enumeration_eq (h : Maps m Entry tmp f) {out : Bytes × Bytes → List Bytes} {n : ℕ}
    (hlen : ∀ p, (out p).length = n) {add : HashTableItem Value → Except Fault (List Bytes)}
    (hadd : ∀ a ∈ tmp.entries, add a = .ok (out (a.key, a.value.text))) {full : Int} (hfull : full = tmp.used * n) :
    hashLoop add full [] tmp.slots = .ok (some ((fields tmp).flatMap out)) := by
  refine (enumeration h.sound hadd ?_).trans ?_
  · rw [hfull, h.counted, List.length_flatMap]
    simp [hlen]
  · rw [fields, List.flatMap_map]

theorem Maps.hgetall_spec (h : Represents m ht s) (hv : Content.asHash (s.lookup key) = some f) :
    Ensures (htableHgetall m ht key) (fun r => ∃ l, Bindings l f ∧
      replyArray r = (Reply.array ((l.flatMap fun p => [p.1, p.2]).map element)).encode) (Escapes m) := by
  refine h.loop_spec hv fun tmp hmaps => hmaps.enumeration_eq (n := 2) (fun _ => rfl) (fun a ha => ?_) rfl
  rw [(hmaps.sound.items a ha).text.1]
  rfl

theorem Maps.hkeys_spec (h : Represents m ht s) (hv : Content.asHash (s.lookup key) = some f) :
    Ensures (htableHkeyvals m ht key 1) (fun r => ∃ l, Bindings l f ∧
      replyArray r = (Reply.array ((l.flatMap fun p => [p.1]).map element)).encode) (Escapes m) := by
  refine h.loop_spec hv fun tmp hmaps => hmaps.enumeration_eq (n := 1) (fun _ => rfl) (fun a ha => ?_) (mul_one _).symm
  rfl

theorem Maps.hvals_spec (h : Represents m ht s) (hv : Content.asHash (s.lookup key) = some f) :
    Ensures (htableHkeyvals m ht key 0) (fun r => ∃ l, Bindings l f ∧
      replyArray r = (Reply.array ((l.flatMap fun p => [p.2]).map element)).encode) (Escapes m) := by
  refine h.loop_spec hv fun tmp hmaps => hmaps.enumeration_eq (n := 1) (fun _ => rfl) (fun a ha => ?_) (mul_one _).symm
  rw [(hmaps.sound.items a ha).text.1]
  rfl

/-! ### Lists -/

/-- A missing list is empty, and the others are there. -/
theorem Maps.list_cases (h : Represents m ht s) (hv : Content.asList (s.lookup key) = some l) :
    l = [] ∧ s.lookup key = none ∨ l ≠ [] ∧ s.lookup key = some (.list l) ∧
      ∃ ls, htableSearch m ht key = .ok (some ⟨.LIST_T, key, .list ls⟩) ∧ Strings ls l := by
  rcases asList_eq_some.mp hv with ⟨hnone, rfl⟩ | hsome
  · exact .inl ⟨rfl, hnone⟩
  · obtain ⟨a, hsearch, hshows⟩ := h.content hsome
    obtain ⟨ls, ha, hls, hne⟩ := hshows.of_list
    have hkey := (h.keyed.search_iff.mp hsearch).2
    rw [ha, hkey] at hsearch
    exact .inr ⟨hne, hsome, ls, hsearch, hls⟩

theorem Maps.llen_spec (h : Represents m ht s) (hv : Content.asList (s.lookup key) = some l) :
    Ensures (htableLlen m ht key) (· = l.length) (Escapes m) := by
  rcases h.list_cases hv with ⟨rfl, hnone⟩ | ⟨-, -, ls, hsearch, hls⟩
  · refine (h.missing hnone).bind fun r _ hr => ?_
    subst hr
    rfl
  · rw [htableLlen_eq hsearch rfl]
    exact hls.len

theorem Maps.lpos_spec (h : Represents m ht s) (hv : Content.asList (s.lookup key) = some l) (value : Bytes) :
    Ensures (htableLpos m ht key value) (· = match l.findIdx? (· = value) with
      | some j => (j : Int)
      | none => -1) (Escapes m) := by
  rcases h.list_cases hv with ⟨rfl, hnone⟩ | ⟨-, -, ls, hsearch, cells, hrep, rfl⟩
  · refine (h.missing hnone).bind fun r _ hr => ?_
    subst hr
    rfl
  · rw [lpos_eq hsearch hrep]
    rfl

theorem Maps.check_missing (h : Represents m ht s) (hnone : s.lookup key = none) (id : Int) :
    Ensures (htableCheckId m ht key id) (· = (-1, id)) (Escapes m) := by
  refine (h.missing hnone).bind fun r _ hr => ?_
  subst hr
  rfl

theorem Maps.checks_missing (h : Represents m ht s) (hnone : s.lookup key = none) (b e : Int) :
    Ensures (htableCheckIds m ht key b e) (· = (-1, b, e)) (Escapes m) := by
  refine (h.missing hnone).bind fun r _ hr => ?_
  subst hr
  rfl

/-! ### Sets -/

theorem Maps.sismember_spec (h : Represents m ht s) (hv : Content.asSet (s.lookup key) = some t) (value : Bytes) :
    Ensures (htableSismember m ht key value) (fun b => b = true ↔ value ∈ t) (Escapes m) := by
  refine h.read_spec (fun hnone => ?_) fun c a hsome hshows => ?_
  · rw [asSet_none hv hnone]
    simp
  · obtain rfl := asSet_some hv hsome
    obtain ⟨st, ha, hst, -⟩ := hshows.of_set
    rw [ha]
    exact (setIsmember_spec hst.wf value).post fun b hb => hb.trans (hst.members.mem value)

theorem Maps.smembers_spec (h : Represents m ht s) (hv : Content.asSet (s.lookup key) = some t) :
    Ensures (htableSmembers m ht key)
      (fun r => ∃ l, Members l t ∧ replyArray r = (Reply.array (l.map element)).encode) (Escapes m) := by
  refine h.read_spec (fun hnone => ?_) fun c a hsome hshows => ?_
  · rw [asSet_none hv hnone]
    exact ⟨[], .nil, replyArray_none_eq⟩
  · obtain rfl := asSet_some hv hsome
    obtain ⟨st, ha, hst, -⟩ := hshows.of_set
    rw [ha]
    exact ⟨setMembers st, hst.members, replyArray_some_eq _⟩

end Reading

end MemKey
