import MemKey.Pointer.Reads
import MemKey.Theorems.Enumeration
import MemKey.Theorems.Pointer.Keyspace

/-! What the functions that read copy: an array of pointers with its strings. The loops over the slots of a table stay
    within the array, and copy what those of the model do. -/

namespace MemKey.Pointer
open Probing Memory

/-! ### Copies -/

/-- An array of `n` pointers, the first ones to the copies and the others NULL. -/
def pointers (n : ℕ) (cs : List (ℕ × Bytes)) : List (Slot ℕ) :=
  cs.map (fun c => .live c.1) ++ List.replicate (n - cs.length) .null

/-- The copies, each an address with its string. -/
def copies (cs : List (ℕ × Bytes)) : Owned := (cs.map fun c => own c.1 (.chars c.2)).sum

def copiesAt (res n : ℕ) (cs : List (ℕ × Bytes)) : Owned := own res (.array (pointers n cs)) + copies cs

section Copies
variable {m f : Owned} {res n : ℕ} {cs xs ys : List (ℕ × Bytes)} {s : Bytes} {a : ℕ} {Q : Unit → Owned → Prop}

theorem length_pointers (h : cs.length ≤ n) : (pointers n cs).length = n := by
  rw [pointers, List.length_append, List.length_map, List.length_replicate]
  omega

theorem copies_nil : copies [] = 0 := rfl

theorem copies_append : copies (xs ++ ys) = copies xs + copies ys := by
  rw [copies, List.map_append, List.sum_append]
  rfl

theorem copies_cons : copies ((a, s) :: cs) = own a (.chars s) + copies cs := by
  rw [copies, List.map_cons, List.sum_cons]
  rfl

theorem pointers_set_live (h : cs.length < n) : (pointers n cs).set cs.length (.live a) = pointers n (cs ++ [(a, s)]) := by
  obtain ⟨k, hk⟩ : ∃ k, n - cs.length = k + 1 := ⟨n - cs.length - 1, by omega⟩
  have hk' : n - (cs ++ [(a, s)]).length = k := by
    rw [List.length_append, List.length_singleton]
    omega
  rw [pointers, pointers, hk, hk', List.replicate_succ, List.set_append_right _ _ (List.length_map ..).le]
  simp

theorem pointers_set_null : (pointers n cs).set cs.length .null = pointers n cs := by
  rw [pointers, List.set_append_right _ _ (List.length_map ..).le]
  simp

theorem pointers_copy : (pointers n (xs ++ (a, s) :: ys))[xs.length]? = some (.live a) := by
  simp [pointers]

theorem pointers_end (h : cs.length < n) : (pointers n cs)[cs.length]? = some .null := by
  rw [pointers, List.getElem?_append_right (List.length_map ..).le, List.length_map, Nat.sub_self, List.getElem?_replicate,
    if_pos (by omega)]

theorem does_callocCells {k : Int} (hk : k.toNat = n) :
    Does (callocCells k) m fun res m' => m' = m + copiesAt res n [] := by
  subst hk
  refine .alloc fun res => ?_
  simp [copiesAt, pointers, copies, add_comm]

theorem does_setCell {ix : ℕ} {x : Slot ℕ} (hm : m = own res (.array (pointers n cs)) + f) (hcs : cs.length ≤ n)
    (hix : ix < n) (h : Q () (own res (.array ((pointers n cs).set ix x)) + f)) : Does (setCell res ix x) m Q := by
  refine .seq (.loadAs hm rfl ?_)
  rw [if_pos (by rwa [length_pointers hcs])]
  exact .store hm h

/-- The array has room for one more copy. -/
theorem does_copyTo (hlt : cs.length < n) (h : ∀ a, Q () (m + copiesAt res n (cs ++ [(a, s)]))) :
    Does (copyTo res cs.length s) (m + copiesAt res n cs) Q := by
  refine .seq (.alloc fun a => ?_)
  have hm : own a (.chars s) + (m + copiesAt res n cs) =
      own res (.array (pointers n cs)) + (own a (.chars s) + (copies cs + m)) := by
    rw [copiesAt]
    abel
  have hafter : own res (.array ((pointers n cs).set cs.length (.live a))) + (own a (.chars s) + (copies cs + m)) =
      m + copiesAt res n (cs ++ [(a, s)]) := by
    rw [pointers_set_live (s := s) hlt, copiesAt, copies_append, copies_cons, copies_nil]
    abel
  exact does_setCell hm hlt.le hlt (hafter ▸ h a)

/-- The NULL behind the copies is there already. -/
theorem does_setNull (hlt : cs.length < n) (h : Q () (m + copiesAt res n cs)) :
    Does (setCell res cs.length .null) (m + copiesAt res n cs) Q := by
  refine does_setCell (add_left_comm ..) hlt.le hlt ?_
  rw [pointers_set_null, add_left_comm]
  exact h

/-- What is read of the result is what was copied. -/
theorem stringsFrom_does (xs : List (ℕ × Bytes)) {k : ℕ} (hlt : (xs ++ ys).length < n) (hk : ys.length < k) :
    Does (stringsFrom res xs.length k) (m + copiesAt res n (xs ++ ys)) fun r m' =>
      r = ys.map Prod.snd ∧ m' = m + copiesAt res n (xs ++ ys) := by
  induction ys generalizing xs k with
  | nil =>
    obtain ⟨k, rfl⟩ : ∃ j, k = j + 1 := ⟨k - 1, by omega⟩
    rw [List.append_nil] at hlt ⊢
    refine .seq (.loadAs (add_left_comm ..) rfl ?_)
    rw [pointers_end hlt]
    exact .pure ⟨rfl, rfl⟩
  | cons c ys ih =>
    obtain ⟨a, s⟩ := c
    obtain ⟨k, rfl⟩ : ∃ j, k = j + 1 := ⟨k - 1, by omega⟩
    refine .seq (.loadAs (add_left_comm ..) rfl ?_)
    rw [pointers_copy]
    have hm : m + copiesAt res n (xs ++ (a, s) :: ys) = own a (.chars s) +
        (own res (.array (pointers n (xs ++ (a, s) :: ys))) + (copies xs + (copies ys + m))) := by
      rw [copiesAt, copies_append, copies_cons]
      abel
    have hrest := ih (xs ++ [(a, s)]) (by simpa using hlt) (Nat.lt_of_succ_lt_succ hk)
    rw [List.append_assoc, List.singleton_append, List.length_append, List.length_singleton] at hrest
    refine .seq (.loadAs hm rfl (.seq (hrest.mono ?_)))
    rintro _ _ ⟨rfl, rfl⟩
    exact .pure ⟨rfl, rfl⟩

end Copies

/-! ### Loops over slots -/

/-- What the loops copy: the strings of the entries, up to the slot at which the result is complete. -/
def scan {β : Type} (g : β → List Bytes) (full : ℕ → Bool) (res : List Bytes) : List (Slot β) → List Bytes × Bool
  | [] => (res, false)
  | b :: bs =>
    if full (res ++ (entries [b]).flatMap g).length then (res ++ (entries [b]).flatMap g, true)
    else scan g full (res ++ (entries [b]).flatMap g) bs

section Scan
variable {β : Type} {g : β → List Bytes} {full : ℕ → Bool} {res : List Bytes} {bs : List (Slot β)}

theorem scan_never : scan g (fun _ => false) res bs = (res ++ (entries bs).flatMap g, false) := by
  induction bs generalizing res with
  | nil => simp [scan, entries]
  | cons b bs ih =>
    have hsplit : entries (b :: bs) = entries [b] ++ entries bs := entries_append [b] bs
    rw [scan, if_neg Bool.false_ne_true, ih, hsplit, List.flatMap_append, List.append_assoc]

theorem hashLoop_scan {out : HashTableItem Value → Except Fault (List Bytes)} {g : HashTableItem Value → List Bytes}
    {count : Int} {slots : List (Slot (HashTableItem Value))} (hout : ∀ a, .live a ∈ slots → out a = .ok (g a)) :
    hashLoop out count res slots = .ok (if (scan g (fun id => (id : Int) = count) res slots).2 then
      some (scan g (fun id => (id : Int) = count) res slots).1 else none) := by
  induction slots generalizing res with
  | nil => rfl
  | cons slot slots ih =>
    rw [hashLoop_cons fun a ha => hout a (ha ▸ List.mem_cons_self), scan]
    by_cases hdone : ((res ++ (entries [slot]).flatMap g).length : Int) = count
    · rw [if_pos hdone, if_pos (decide_eq_true hdone)]
      rfl
    · rw [if_neg hdone, if_neg (mt of_decide_eq_true hdone)]
      exact ih fun a ha => hout a (List.mem_cons_of_mem _ ha)

end Scan

/-- A program that copies strings to the array, whatever is in it, and leaves the rest as it is. -/
def Outputs (out : ℕ → Prog ℕ) (res n : ℕ) (m : Owned) (strings : List Bytes) : Prop :=
  ∀ cs : List (ℕ × Bytes), cs.length + strings.length < n →
    Does (out cs.length) (m + copiesAt res n cs) fun id m' =>
      ∃ cs', id = cs'.length ∧ m' = m + copiesAt res n cs' ∧ cs'.map Prod.snd = cs.map Prod.snd ++ strings

section Loop
variable {β : Type} {g : β → List Bytes} {out : ℕ → ℕ → Prog ℕ} {full : ℕ → Prog Bool} {done : ℕ → Bool} {p res n : ℕ}
  {t : Head} {m f : Owned}

/-- The slots before `ds.length` have been copied; each slot that is left has the address of its entry and the entry. -/
theorem copyLoop_does (cs : List (ℕ × Bytes)) (ds zs : List (Slot (ℕ × β)))
    (hm : m = own p (.table t) + (own t.items (.array ((ds ++ zs).map (Slot.map Prod.fst))) + f))
    (hout : ∀ z ∈ entries zs, Outputs (out z.1) res n m (g z.2))
    (hfull : ∀ id x, Does (full id) (m + x) fun r m' => r = done id ∧ m' = m + x)
    (hroom : cs.length + ((entries zs).flatMap fun z => g z.2).length < n) :
    Does (copyLoop out full p ds.length cs.length zs.length) (m + copiesAt res n cs) fun r m' =>
      ∃ cs', r = (cs'.length, (scan g done (cs.map Prod.snd) (zs.map (Slot.map Prod.snd))).2) ∧
        m' = m + copiesAt res n cs' ∧
        cs'.map Prod.snd = (scan g done (cs.map Prod.snd) (zs.map (Slot.map Prod.snd))).1 ∧ cs'.length < n := by
  induction zs generalizing ds cs with
  | nil => exact .pure ⟨cs, rfl, rfl, rfl, by simpa [entries] using hroom⟩
  | cons b zs ih =>
    have hsplit : entries (b :: zs) = entries [b] ++ entries zs := entries_append [b] zs
    have hat : ((ds ++ b :: zs).map (Slot.map Prod.fst))[ds.length]? = some (b.map Prod.fst) := by simp
    rw [hsplit, List.flatMap_append, List.length_append] at hroom
    -- The rest of the round, once the entry of the slot has been copied.
    have hrest (cs' : List (ℕ × Bytes))
        (hcs' : cs'.map Prod.snd = cs.map Prod.snd ++ (entries [b.map Prod.snd]).flatMap g) :
        Does (do if ← full cs'.length then pure (cs'.length, true) else
            copyLoop out full p (ds.length + 1) cs'.length zs.length) (m + copiesAt res n cs') fun r m' =>
          ∃ cs'', r = (cs''.length, (scan g done (cs.map Prod.snd) ((b :: zs).map (Slot.map Prod.snd))).2) ∧
            m' = m + copiesAt res n cs'' ∧
            cs''.map Prod.snd = (scan g done (cs.map Prod.snd) ((b :: zs).map (Slot.map Prod.snd))).1 ∧ cs''.length < n := by
      have hone : (entries [b.map Prod.snd]).flatMap g = (entries [b]).flatMap fun z => g z.2 := by
        cases b <;> rfl
      have hlen : cs'.length = (cs.map Prod.snd ++ (entries [b.map Prod.snd]).flatMap g).length := by
        rw [← hcs', List.length_map]
      have hlen' := hlen
      rw [List.length_append, List.length_map, hone] at hlen'
      rw [List.map_cons, scan, ← hlen, ← hcs']
      refine .seq ((hfull _ _).mono ?_)
      rintro _ _ ⟨rfl, rfl⟩
      by_cases hdone : done cs'.length = true
      · rw [if_pos hdone, if_pos hdone]
        exact .pure ⟨cs', rfl, rfl, rfl, by omega⟩
      · rw [if_neg hdone, if_neg hdone]
        have := ih cs' (ds ++ [b]) (by rw [hm, List.append_assoc, List.singleton_append])
          (fun z hz => hout z (hsplit ▸ List.mem_append_right _ hz)) (by omega)
        rwa [List.length_append, List.length_singleton] at this
    have htable : m + copiesAt res n cs = own p (.table t) +
        (own t.items (.array ((ds ++ b :: zs).map (Slot.map Prod.fst))) + f + copiesAt res n cs) := by
      rw [hm, add_assoc]
    have harray : m + copiesAt res n cs = own t.items (.array ((ds ++ b :: zs).map (Slot.map Prod.fst))) +
        (own p (.table t) + f + copiesAt res n cs) := by
      rw [hm, add_left_comm, add_assoc]
    refine .seq (.loadAs htable rfl (.seq (.loadAs harray rfl ?_)))
    rw [hat]
    cases b with
    | live z =>
      have hz : z ∈ entries (.live z :: zs) := hsplit ▸ List.mem_cons_self
      have hone : ((entries [.live z]).flatMap fun z => g z.2) = g z.2 := List.flatMap_singleton ..
      rw [hone] at hroom
      refine .seq ((hout z hz cs (by omega)).mono ?_)
      rintro _ _ ⟨cs', rfl, rfl, hcs'⟩
      exact hrest cs' (hcs'.trans (congrArg _ (List.flatMap_singleton ..).symm))
    | null => exact .seq (.pure (hrest cs (List.append_nil _).symm))
    | deleted => exact .seq (.pure (hrest cs (List.append_nil _).symm))

end Loop

end MemKey.Pointer
