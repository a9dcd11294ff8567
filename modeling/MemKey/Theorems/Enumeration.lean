import MemKey.Theorems.Moves
import MemKey.Theorems.Operations

/-! The enumeration of a hash. Its loop over the slots returns once it has as many strings as the counter says, so
    it agrees with the lookups when the counter is the number of the fields, and finds nothing when it is not. -/

namespace MemKey
open Probing Outcome

/-- The characters of a string. -/
def Value.text : Value → Bytes
  | .str s => s
  | _ => []

/-- The fields of a hash with their values, in the order of the slots. -/
def fields (tmp : HashTable Value) : List (Bytes × Bytes) := tmp.entries.map fun a => (a.key, a.value.text)

/-- The enumerations of the hash of `key` list `pairs`, and these are what the lookups find. -/
structure Enumerates (m : IntMode) (ht : Keyspace) (key : Bytes) (pairs : List (Bytes × Bytes)) : Prop where
  all : htableHgetall m ht key = .ok (some (pairs.flatMap fun p => [p.1, p.2]))
  keys : htableHkeyvals m ht key 1 = .ok (some (pairs.map (·.1)))
  vals : htableHkeyvals m ht key 0 = .ok (some (pairs.map (·.2)))
  len : htableHlen m ht key = .ok pairs.length
  once : pairs.Nodup
  found : ∀ field value, (field, value) ∈ pairs ↔ htableHget m ht key field = .ok (some value)

/-! ### The loop -/

section Loop
variable {out : HashTableItem Value → Except Fault (List Bytes)} {g : HashTableItem Value → List Bytes}
  {full : Int} {res : List Bytes} {slots : List (Slot (HashTableItem Value))} {slot : Slot (HashTableItem Value)}

theorem hashLoop_cons (hout : ∀ a, slot = .live a → out a = .ok (g a)) :
    hashLoop out full res (slot :: slots) =
      if (res ++ (entries [slot]).flatMap g).length = full then .ok (some (res ++ (entries [slot]).flatMap g))
      else hashLoop out full (res ++ (entries [slot]).flatMap g) slots := by
  cases slot with
  | live a =>
    have hone : (entries [.live a]).flatMap g = g a := List.flatMap_singleton g a
    rw [hashLoop, hout a rfl, hone]
    rfl
  | null => rfl
  | deleted => rfl

theorem entries_cons (slot : Slot (HashTableItem Value)) : entries (slot :: slots) = entries [slot] ++ entries slots :=
  entries_append [slot] slots

/-- The loop returns all strings if the counter says how many there are. -/
theorem hashLoop_full (hout : ∀ a, .live a ∈ slots → out a = .ok (g a)) (hne : slots ≠ [])
    (hfull : (res ++ (entries slots).flatMap g).length = full) :
    hashLoop out full res slots = .ok (some (res ++ (entries slots).flatMap g)) := by
  induction slots generalizing res with
  | nil => exact absurd rfl hne
  | cons slot slots ih =>
    rw [entries_cons, List.flatMap_append, ← List.append_assoc] at hfull ⊢
    rw [hashLoop_cons fun a ha => hout a (ha ▸ List.mem_cons_self)]
    by_cases hdone : ((res ++ (entries [slot]).flatMap g).length : Int) = full
    · -- The strings are complete, so no slot that is left holds an entry.
      have hlen : ((entries slots).flatMap g).length = 0 := by
        rw [List.length_append] at hfull
        omega
      rw [if_pos hdone, List.eq_nil_of_length_eq_zero hlen, List.append_nil]
    · rw [if_neg hdone]
      refine ih (fun a ha => hout a (List.mem_cons_of_mem slot ha)) ?_ hfull
      rintro rfl
      exact hdone (by rw [← hfull]; simp [entries])

/-- The loop finds no end if the counter says more. -/
theorem hashLoop_short (hout : ∀ a, .live a ∈ slots → out a = .ok (g a))
    (hfull : (res ++ (entries slots).flatMap g).length < full) : hashLoop out full res slots = .ok none := by
  induction slots generalizing res with
  | nil => rfl
  | cons slot slots ih =>
    rw [entries_cons, List.flatMap_append, ← List.append_assoc] at hfull
    have hlen : ((res ++ (entries [slot]).flatMap g).length : Int) < full := by
      rw [List.length_append] at hfull
      omega
    rw [hashLoop_cons fun a ha => hout a (ha ▸ List.mem_cons_self), if_neg (by omega)]
    exact ih (fun a ha => hout a (List.mem_cons_of_mem slot ha)) hfull

end Loop

/-! ### One hash -/

section Hash
variable {m : IntMode} {ht tmp : HashTable Value} {key field value : Bytes} {a : HashTableItem Value}

theorem htableRead_found {ρ : Type} {act : Value → Except Fault ρ} {missing : ρ}
    (hsearch : htableSearch m ht key = .ok (some a)) : htableRead m ht key act missing = act a.value := by
  rw [htableRead, hsearch]
  rfl

theorem IsString.text (h : IsString a) : a.value.asStr = .ok a.value.text ∧ a = ⟨.STR_T, a.key, .str a.value.text⟩ := by
  obtain ⟨type, key, v⟩ := a
  obtain ⟨rfl, s, rfl⟩ := h
  exact ⟨rfl, rfl⟩

theorem mem_fields (h : Sound m IsString tmp) :
    (field, value) ∈ fields tmp ↔ htableGet m tmp field = .ok (some value) := by
  constructor
  · intro hmem
    obtain ⟨a, ha, heq⟩ := List.mem_map.mp hmem
    cases heq
    have hitem := (h.items a ha).text.2
    rw [hitem] at ha
    exact h.keyed.get ha
  · intro hget
    obtain ⟨r, hsearch, hread⟩ := bind_eq_ok.mp hget
    cases r with
    | none => cases hread
    | some a =>
      obtain ⟨hmem, rfl⟩ := h.keyed.search_iff.mp hsearch
      obtain ⟨s, hs, heq⟩ := bind_eq_ok.mp hread
      cases heq
      cases (h.items a hmem).text.1.symm.trans hs
      exact List.mem_map.mpr ⟨a, hmem, rfl⟩

theorem fields_nodup (h : Sound m IsString tmp) : (fields tmp).Nodup := by
  refine List.Nodup.of_map Prod.fst ?_
  have hkeys : (fields tmp).map Prod.fst = tmp.entries.map HashTableItem.key := by
    rw [fields, List.map_map]
    rfl
  rw [hkeys]
  exact h.keyed.2

/-- What one of the loops gives. -/
theorem enumeration (h : Sound m IsString tmp) {out : HashTableItem Value → Except Fault (List Bytes)}
    {g : HashTableItem Value → List Bytes} (hout : ∀ a ∈ tmp.entries, out a = .ok (g a)) {full : Int}
    (hfull : (tmp.entries.flatMap g).length = full) :
    hashLoop out full [] tmp.slots = .ok (some (tmp.entries.flatMap g)) := by
  refine hashLoop_full (fun a ha => hout a (mem_entries.mpr (List.mem_iff_getElem?.mp ha))) ?_ hfull
  intro hnil
  have hlen := h.keyed.1.length
  have htwo := h.keyed.1.two_le
  rw [hnil, List.length_nil] at hlen
  omega

/-- The enumerations agree with the lookups if the counter is the number of the fields. -/
theorem enumerates_of_counted (h : Sound m IsString tmp) (hsearch : htableSearch m ht key = .ok (some a))
    (hv : a.value = .hash tmp) (hcount : tmp.used = tmp.entries.length) : Enumerates m ht key (fields tmp) := by
  have hlen : (fields tmp).length = tmp.entries.length := List.length_map _
  refine ⟨?_, ?_, ?_, ?_, fields_nodup h, fun field value => ?_⟩
  · rw [htableHgetall, htableRead_found hsearch, hv]
    refine (enumeration h (g := fun a => [a.key, a.value.text]) (fun a ha => ?_) ?_).trans ?_
    · rw [(h.items a ha).text.1]
      rfl
    · simp [hcount]
    · rw [fields, List.flatMap_map]
  · rw [htableHkeyvals, htableRead_found hsearch, hv]
    refine (enumeration h (g := fun a => [a.key]) (fun a ha => rfl) ?_).trans ?_
    · simp [hcount]
    · rw [fields, List.map_map, List.map_eq_flatMap]
      rfl
  · rw [htableHkeyvals, htableRead_found hsearch, hv]
    refine (enumeration h (g := fun a => [a.value.text]) (fun a ha => ?_) ?_).trans ?_
    · rw [(h.items a ha).text.1]
      rfl
    · simp [hcount]
    · rw [fields, List.map_map, List.map_eq_flatMap]
      rfl
  · rw [htableHlen, htableRead_found hsearch, hv, hlen, ← hcount]
    rfl
  · rw [htableHget, htableRead_found hsearch, hv]
    exact mem_fields h

/-- If the counter says more, the loop finds nothing. -/
theorem counted_of_enumerates {pairs : List (Bytes × Bytes)} (h : Sound m IsString tmp)
    (hsearch : htableSearch m ht key = .ok (some a)) (hv : a.value = .hash tmp) (he : Enumerates m ht key pairs) :
    tmp.used = tmp.entries.length := by
  by_contra hne
  have hcounted := h.keyed.1.counted
  have hkeys := he.keys
  rw [htableHkeyvals, htableRead_found hsearch, hv] at hkeys
  have hshort : hashLoop (fun item : HashTableItem Value => .ok [item.key]) tmp.used [] tmp.slots = .ok none := by
    refine hashLoop_short (g := fun a => [a.key]) (fun _ _ => rfl) ?_
    change (([] ++ tmp.entries.flatMap fun a : HashTableItem Value => [a.key]).length : Int) < tmp.used
    rw [List.nil_append, ← List.map_eq_flatMap, List.length_map]
    omega
  cases hshort.symm.trans hkeys

theorem HtableReached.hashFilled (h : HtableReached m (HtableOp.KeepsFields m) ht) :
    Sound m (fun a => Tagged m a ∧ HashFilled a.value) ht := by
  refine h.invariant (Sound m fun a => Tagged m a ∧ HashFilled a.value) .init fun ht op ht' hs hkeeps hstep => ?_
  refine hs.step hstep (fun a hc => ⟨HtableOp.create_tagged hc, HtableOp.create_hashFilled hc⟩) ?_
  intro ix a a' hfind ⟨htag, hfilled⟩ hact
  exact ⟨HtableOp.act_tagged htag hact, HtableOp.act_hashFilled htag hfilled (hkeeps ix a hfind) hact⟩

/-- The enumerations of a hash agree with its lookups exactly when its counter is the number of its fields, and it is
    as long as every field that a resize of a hash moves finds a free slot. -/
theorem enumerations_agree (h : Reachable m ht) (hsearch : htableSearch m ht key = .ok (some a))
    (hv : a.value = .hash tmp) :
    ((∃ pairs, Enumerates m ht key pairs) ↔ tmp.used = tmp.entries.length) ∧
    (Runs.Reached (serve m) (htableInit htBaseSize) (Command.Meets m (HtableOp.KeepsFields m)) ht →
      ∃ pairs, Enumerates m ht key pairs) := by
  have hmem := (h.sound.keyed.search_iff.mp hsearch).1
  have htag : Holds m a.type a.value := h.sound.items a hmem
  have htmp := (hv ▸ htag).of_hash.2
  refine ⟨⟨fun ⟨pairs, he⟩ => counted_of_enumerates htmp hsearch hv he, fun hcount => ?_⟩, fun hrun => ?_⟩
  · exact ⟨_, enumerates_of_counted htmp hsearch hv hcount⟩
  · have hfilled := ((reached_ops hrun).hashFilled.items a hmem).2
    exact ⟨_, enumerates_of_counted htmp hsearch hv (hfilled tmp hv).used⟩

end Hash

/-- `HSET h a 1 f 2`: the hash grows to 5 slots and keeps both fields. -/
theorem enumerations_agree_grown :
    ∃ ht a tmp, serve .wrap (htableInit htBaseSize) ⟨.HSET, [str "h", str "a", str "1", str "f", str "2"]⟩ = .ok ht ∧
      htableSearch .wrap ht (str "h") = .ok (some a) ∧ a.value = .hash tmp ∧ tmp.size = 5 ∧ tmp.entries.length = 2 ∧
      ∃ pairs, Enumerates .wrap ht (str "h") pairs := by
  have hmeets : Command.Meets .wrap (HtableOp.KeepsFields .wrap) (htableInit htBaseSize)
      ⟨.HSET, [str "h", str "a", str "1", str "f", str "2"]⟩ := by decide +kernel
  have hrun : (do
      let ht ← serve .wrap (htableInit htBaseSize) ⟨.HSET, [str "h", str "a", str "1", str "f", str "2"]⟩
      let item ← htableSearch .wrap ht (str "h")
      let tmp ← item.elim (.error .wrongType) fun a => a.value.asHash
      .ok (tmp.size, tmp.entries.length)) = .ok (5, 2) := by decide +kernel
  obtain ⟨ht, hserve, hrun⟩ := bind_eq_ok.mp hrun
  obtain ⟨item, hsearch, hrun⟩ := bind_eq_ok.mp hrun
  obtain ⟨tmp, htmp, heq⟩ := bind_eq_ok.mp hrun
  cases item with
  | none => cases htmp
  | some a =>
    have hv : a.value = .hash tmp := asHash_eq_ok htmp
    obtain ⟨hsize, hlen⟩ := Prod.mk.inj (Except.ok.inj heq)
    have hreach : Reachable .wrap ht := .step .init trivial hserve
    exact ⟨ht, a, tmp, hserve, hsearch, hv, hsize, hlen,
      (enumerations_agree hreach hsearch hv).2 (.step .init hmeets hserve)⟩

/-- `HSET h d 1 i 2`: the hash grows to 5 slots and drops `d`, which its counter still counts. -/
theorem enumerations_disagree : ∃ ht, Reachable .wrap ht ∧
    htableHget .wrap ht (str "h") (str "i") = .ok (some (str "2")) ∧ htableHgetall .wrap ht (str "h") = .ok none ∧
    htableHlen .wrap ht (str "h") = .ok 2 := by
  have hrun : (do
      let ht ← serve .wrap (htableInit htBaseSize) ⟨.HSET, [str "h", str "d", str "1", str "i", str "2"]⟩
      let found ← htableHget .wrap ht (str "h") (str "i")
      let all ← htableHgetall .wrap ht (str "h")
      let len ← htableHlen .wrap ht (str "h")
      .ok (found, all, len)) = .ok (some (str "2"), none, 2) := by decide +kernel
  obtain ⟨ht, hserve, hrun⟩ := bind_eq_ok.mp hrun
  obtain ⟨_, hfound, hrun⟩ := bind_eq_ok.mp hrun
  obtain ⟨_, hall, hrun⟩ := bind_eq_ok.mp hrun
  obtain ⟨_, hlen, heq⟩ := bind_eq_ok.mp hrun
  cases heq
  exact ⟨ht, .step .init trivial hserve, hfound, hall, hlen⟩

end MemKey
