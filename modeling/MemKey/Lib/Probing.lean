import Mathlib.Data.List.Perm.Subperm
import Mathlib.Data.List.Nodup

/-! Open addressing with tombstones over a list of slots. A key `k` has a probe path: probe number `j`
    looks at slot `path k j`, or falls outside the table. A probe loop walks the path and stops at the
    first slot that satisfies its stop test. The representation invariant `Reaches` says that every entry
    is found on the path of its key before any slot that was never used. -/

namespace Probing

/-- A slot is never used (`null`), used and freed (`deleted`), or holds an entry. -/
inductive Slot (α : Type) where
  | null
  | deleted
  | live (entry : α)
  deriving DecidableEq, Repr

variable {α β κ : Type}

namespace Slot

def toOption : Slot α → Option α
  | live a => some a
  | _ => none

/-- The slot with its entry replaced by what `f` makes of it. -/
def map (f : α → β) : Slot α → Slot β
  | null => null
  | deleted => deleted
  | live a => live (f a)

/-- An insertion may take the slot. -/
def vacant : Slot α → Bool
  | live _ => false
  | _ => true

@[simp] theorem toOption_null : (null : Slot α).toOption = none := rfl
@[simp] theorem toOption_deleted : (deleted : Slot α).toOption = none := rfl
@[simp] theorem toOption_live (a : α) : (live a).toOption = some a := rfl
@[simp] theorem map_null (f : α → β) : (null : Slot α).map f = null := rfl
@[simp] theorem map_deleted (f : α → β) : (deleted : Slot α).map f = deleted := rfl
@[simp] theorem map_live (f : α → β) (a : α) : (live a).map f = live (f a) := rfl
@[simp] theorem vacant_null : (null : Slot α).vacant = true := rfl
@[simp] theorem vacant_deleted : (deleted : Slot α).vacant = true := rfl
@[simp] theorem vacant_live (a : α) : (live a).vacant = false := rfl

theorem toOption_eq_none {b : Slot α} : b.toOption = none ↔ b.vacant = true := by
  cases b <;> simp

end Slot

/-! ### Probe loops -/

/-- How a probe loop ends: at a slot that satisfies its stop test, after its last probe, or at a probe
    outside the table. -/
inductive Walk (β : Type) where
  | hit (b : β)
  | miss
  | outside
  deriving DecidableEq, Repr

/-- The end of a loop, with what `f` makes of where it stops. -/
def Walk.map {γ : Type} (f : β → γ) : Walk β → Walk γ
  | hit b => hit (f b)
  | miss => miss
  | outside => outside

/-- The probe loop over the probes `i, i + 1, .., i + n - 1`. -/
def walk (look : ℕ → Option β) (stop : β → Bool) (i : ℕ) : ℕ → Walk β
  | 0 => .miss
  | n + 1 =>
    match look i with
    | none => .outside
    | some b => if stop b then .hit b else walk look stop (i + 1) n

/-- Whether a loop stops at a slot of which `P` holds. -/
instance decidableHit {P : ℕ → Slot α → Prop} [∀ ix b, Decidable (P ix b)] (w : Walk (ℕ × Slot α)) :
    Decidable (∃ ix b, w = .hit (ix, b) ∧ P ix b) :=
  match w with
  | .hit (ix, b) => decidable_of_iff (P ix b) (by simp)
  | .miss => isFalse (by simp)
  | .outside => isFalse (by simp)

instance decidableStops (w : Walk β) : Decidable (∃ b, w = .hit b) :=
  match w with
  | .hit b => isTrue ⟨b, rfl⟩
  | .miss => isFalse (by simp)
  | .outside => isFalse (by simp)

instance decidableOfHit {P : ℕ → Slot α → Prop} [∀ ix b, Decidable (P ix b)] (w : Walk (ℕ × Slot α)) :
    Decidable (∀ ix b, w = .hit (ix, b) → P ix b) :=
  match w with
  | .hit (ix, b) => decidable_of_iff (P ix b) (by simp)
  | .miss => isTrue (by simp)
  | .outside => isTrue (by simp)

section Loop
variable {look : ℕ → Option β} {stop : β → Bool}

/-- Every probe from `i` up to `j` stays in the table and does not stop the loop. -/
def Passes (look : ℕ → Option β) (stop : β → Bool) (i j : ℕ) : Prop :=
  ∀ l, i ≤ l → l < j → ∃ b, look l = some b ∧ stop b = false

theorem Passes.cons {i j : ℕ} {b : β} (hb : look i = some b) (hs : stop b = false)
    (h : Passes look stop (i + 1) j) : Passes look stop i j := by
  intro l hl hlj
  rcases Nat.eq_or_lt_of_le hl with rfl | hl
  · exact ⟨b, hb, hs⟩
  · exact h l hl hlj

theorem walk_eq_hit {i n : ℕ} {b : β} :
    walk look stop i n = .hit b ↔
      ∃ j, i ≤ j ∧ j < i + n ∧ look j = some b ∧ stop b = true ∧ Passes look stop i j := by
  induction n generalizing i with
  | zero =>
    simp only [walk, reduceCtorEq, false_iff]
    rintro ⟨j, hij, hj, -⟩
    omega
  | succ n ih =>
    unfold walk
    constructor
    · intro h
      cases hb : look i with
      | none => simp [hb] at h
      | some b' =>
        simp only [hb] at h
        by_cases hs : stop b' = true
        · simp only [hs, ite_true, Walk.hit.injEq] at h
          subst h
          exact ⟨i, Nat.le_refl _, by omega, hb, hs, fun l hl hli => by omega⟩
        · simp only [hs, Bool.false_eq_true, ite_false] at h
          obtain ⟨j, hij, hj, hlook, hstop, hpass⟩ := ih.mp h
          exact ⟨j, by omega, by omega, hlook, hstop, hpass.cons hb (by simpa using hs)⟩
    · rintro ⟨j, hij, hj, hlook, hstop, hpass⟩
      rcases Nat.eq_or_lt_of_le hij with rfl | hij
      · simp [hlook, hstop]
      · obtain ⟨b', hb', hs'⟩ := hpass i (Nat.le_refl _) hij
        simp only [hb', hs', Bool.false_eq_true, ite_false]
        exact ih.mpr ⟨j, hij, by omega, hlook, hstop, fun l hl hlj => hpass l (by omega) hlj⟩

theorem walk_ne_outside {i n : ℕ} (h : ∀ j, i ≤ j → j < i + n → (look j).isSome) :
    walk look stop i n ≠ .outside := by
  induction n generalizing i with
  | zero => simp [walk]
  | succ n ih =>
    unfold walk
    obtain ⟨b, hb⟩ := Option.isSome_iff_exists.mp (h i (Nat.le_refl _) (by omega))
    simp only [hb]
    split
    · simp
    · exact ih fun j hij hj => h j (by omega) (by omega)

/-- A loop depends only on what it looks at. -/
theorem walk_congr {look' : ℕ → Option β} {i n : ℕ} (h : ∀ j < i + n, look j = look' j) :
    walk look stop i n = walk look' stop i n := by
  induction n generalizing i with
  | zero => rfl
  | succ n ih =>
    rw [walk, walk, h i (by omega), ih (i := i + 1) fun j hj => h j (by omega)]

theorem walk_of_stop (stop : β → Bool) {n j : ℕ} {b : β} (hj : j < n) (hb : look j = some b) (hs : stop b = true)
    (hin : ∀ i < j, (look i).isSome) :
    ∃ i ≤ j, ∃ b', look i = some b' ∧ stop b' = true ∧ walk look stop 0 n = .hit b' := by
  induction j using Nat.strongRecOn generalizing b with
  | _ j ih =>
    by_cases hp : Passes look stop 0 j
    · exact ⟨j, Nat.le_refl _, b, hb, hs, walk_eq_hit.mpr ⟨j, by omega, by omega, hb, hs, hp⟩⟩
    · -- Some earlier probe stops: take that one.
      simp only [Passes, not_forall, not_exists, not_and, Bool.not_eq_false] at hp
      obtain ⟨i, -, hij, hi⟩ := hp
      obtain ⟨b', hb'⟩ := Option.isSome_iff_exists.mp (hin i hij)
      obtain ⟨i', hi', h⟩ := ih i hij (by omega) hb' (hi b' hb') fun l hl => hin l (by omega)
      exact ⟨i', by omega, h⟩

end Loop

/-! ### Slots on a path -/

/-- What probe `i` of a path sees: the index of a slot and its content. -/
def look (path : ℕ → Option ℕ) (slots : List (Slot α)) (i : ℕ) : Option (ℕ × Slot α) :=
  (path i).bind fun ix => slots[ix]?.map (ix, ·)

theorem look_eq_some {path : ℕ → Option ℕ} {slots : List (Slot α)} {i ix : ℕ} {b : Slot α} :
    look path slots i = some (ix, b) ↔ path i = some ix ∧ slots[ix]? = some b := by
  simp only [look, Option.bind_eq_some_iff, Option.map_eq_some_iff, Prod.mk.injEq]
  constructor
  · rintro ⟨ix', hp, b', hb', rfl, rfl⟩
    exact ⟨hp, hb'⟩
  · rintro ⟨hp, hb⟩
    exact ⟨ix, hp, b, hb, rfl, rfl⟩

theorem look_map {path : ℕ → Option ℕ} {slots : List (Slot α)} (f : α → β) (i : ℕ) :
    look path (slots.map (Slot.map f)) i = (look path slots i).map fun p => (p.1, p.2.map f) := by
  unfold look
  cases path i with
  | none => rfl
  | some ix => simp only [Option.bind_some, List.getElem?_map, Option.map_map]; rfl

/-- A loop whose stop test does not see the difference stops at the same slot. -/
theorem walk_look_map {path : ℕ → Option ℕ} {slots : List (Slot α)} {f : α → β} {stop : Slot α → Bool}
    {stop' : Slot β → Bool} (hs : ∀ b, stop' (b.map f) = stop b) (i n : ℕ) :
    walk (look path (slots.map (Slot.map f))) (fun p => stop' p.2) i n =
      (walk (look path slots) (fun p => stop p.2) i n).map fun p => (p.1, p.2.map f) := by
  induction n generalizing i with
  | zero => rfl
  | succ n ih =>
    rw [walk, walk, ih, look_map]
    cases look path slots i with
    | none => rfl
    | some p =>
      simp only [Option.map_some, hs]
      split <;> rfl

theorem look_set {path : ℕ → Option ℕ} {slots : List (Slot α)} {ix : ℕ} {c : Slot α} (i : ℕ) :
    look path (slots.set ix c) i =
      (look path slots i).map fun p => if p.1 = ix then (p.1, c) else p := by
  unfold look
  cases path i with
  | none => rfl
  | some jx =>
    simp only [Option.bind_some, List.getElem?_set, Option.map_map]
    by_cases h : jx = ix
    · subst h
      by_cases hl : jx < slots.length
      · simp [hl]
      · simp [hl]
    · simp only [Ne.symm h, ite_false]
      cases slots[jx]? <;> simp [h]

/-- Probe `j < n` of the path reaches slot `ix`, after slots that were all used at some time. -/
def OnPath (path : ℕ → Option ℕ) (n : ℕ) (slots : List (Slot α)) (ix : ℕ) : Prop :=
  ∃ j < n, path j = some ix ∧ ∀ i < j, ∃ jx b, look path slots i = some (jx, b) ∧ b ≠ .null

/-- Setting a slot to something other than `null` leaves no new hole on a path. -/
theorem OnPath.set {path : ℕ → Option ℕ} {n : ℕ} {slots : List (Slot α)} {ix jx : ℕ} {c : Slot α}
    (h : OnPath path n slots ix) (hc : c ≠ .null) : OnPath path n (slots.set jx c) ix := by
  obtain ⟨j, hj, hp, hb⟩ := h
  refine ⟨j, hj, hp, fun i hi => ?_⟩
  obtain ⟨kx, b, hlook, hne⟩ := hb i hi
  rw [look_set, hlook]
  by_cases h : kx = jx
  · exact ⟨kx, c, by simp [h], hc⟩
  · exact ⟨kx, b, by simp [h], hne⟩

/-- No probe up to the one that meets the entry meets `null`. -/
theorem OnPath.live {path : ℕ → Option ℕ} {n : ℕ} {slots : List (Slot α)} {ix : ℕ} {a : α}
    (h : OnPath path n slots ix) (ha : slots[ix]? = some (.live a)) :
    ∃ j < n, look path slots j = some (ix, .live a) ∧
      ∀ i ≤ j, ∃ jx b, look path slots i = some (jx, b) ∧ b ≠ .null := by
  obtain ⟨j, hj, hp, hbefore⟩ := h
  have hlook : look path slots j = some (ix, .live a) := look_eq_some.mpr ⟨hp, ha⟩
  refine ⟨j, hj, hlook, fun i hi => ?_⟩
  rcases Nat.eq_or_lt_of_le hi with rfl | hi
  · exact ⟨ix, .live a, hlook, nofun⟩
  · exact hbefore i hi

theorem OnPath.of_walk {path : ℕ → Option ℕ} {n : ℕ} {slots : List (Slot α)} {stop : ℕ × Slot α → Bool}
    {ix : ℕ} {b : Slot α} (hstop : ∀ jx, stop (jx, .null) = true)
    (h : walk (look path slots) stop 0 n = .hit (ix, b)) : OnPath path n slots ix := by
  obtain ⟨j, -, hj, hlook, -, hpass⟩ := walk_eq_hit.mp h
  refine ⟨j, by omega, (look_eq_some.mp hlook).1, fun i hi => ?_⟩
  obtain ⟨⟨jx, c⟩, hl, hs⟩ := hpass i (Nat.zero_le i) hi
  refine ⟨jx, c, hl, ?_⟩
  rintro rfl
  rw [hstop jx] at hs
  cases hs

/-! ### Tables of keyed entries -/

/-- The entries of a table in slot order. -/
def entries (slots : List (Slot α)) : List α := slots.filterMap Slot.toOption

theorem mem_entries {slots : List (Slot α)} {a : α} :
    a ∈ entries slots ↔ ∃ ix : ℕ, slots[ix]? = some (.live a) := by
  rw [entries, List.mem_filterMap]
  simp only [List.mem_iff_getElem?]
  constructor
  · rintro ⟨b, ⟨ix, hix⟩, hb⟩
    cases b <;> simp at hb
    exact ⟨ix, hb ▸ hix⟩
  · rintro ⟨ix, hix⟩
    exact ⟨.live a, ⟨ix, hix⟩, rfl⟩

theorem entries_append (s t : List (Slot α)) : entries (s ++ t) = entries s ++ entries t :=
  List.filterMap_append

theorem entries_map (f : α → β) (slots : List (Slot α)) : entries (slots.map (Slot.map f)) = (entries slots).map f := by
  rw [entries, entries, List.filterMap_map, List.map_filterMap]
  congr 1
  funext b
  cases b <;> rfl

theorem map_map_slots {γ : Type} (f : α → β) (g : β → γ) (slots : List (Slot α)) :
    (slots.map (Slot.map f)).map (Slot.map g) = slots.map (Slot.map (g ∘ f)) := by
  rw [List.map_map]
  congr 1
  funext b
  cases b <;> rfl

/-- Two tables with the same image are the two sides of a table of pairs. -/
theorem exists_pairs {γ : Type} {f : α → γ} {g : β → γ} {s : List (Slot α)} {t : List (Slot β)}
    (h : s.map (Slot.map f) = t.map (Slot.map g)) : ∃ z : List (Slot (α × β)), z.map (Slot.map Prod.fst) = s ∧
      z.map (Slot.map Prod.snd) = t ∧ ∀ p ∈ entries z, f p.1 = g p.2 := by
  induction s generalizing t with
  | nil =>
    cases t with
    | nil => exact ⟨[], rfl, rfl, by simp [entries]⟩
    | cons b t => cases h
  | cons a s ih =>
    cases t with
    | nil => cases h
    | cons b t =>
      obtain ⟨hab, hst⟩ := List.cons.inj h
      obtain ⟨z, rfl, rfl, hz⟩ := ih hst
      cases a <;> cases b <;> try cases hab
      · exact ⟨.null :: z, rfl, rfl, hz⟩
      · exact ⟨.deleted :: z, rfl, rfl, hz⟩
      · rename_i a b
        have hfg : f a = g b := by injection hab
        exact ⟨.live (a, b) :: z, rfl, rfl, List.forall_mem_cons.mpr ⟨hfg, hz⟩⟩

@[simp] theorem entries_replicate_null (n : ℕ) : entries (List.replicate n (Slot.null : Slot α)) = [] := by
  simp [entries]

theorem length_entries_le (slots : List (Slot α)) : (entries slots).length ≤ slots.length :=
  List.length_filterMap_le ..

/-- A table with fewer entries than slots has a slot without one. -/
theorem exists_vacant {slots : List (Slot α)} (h : (entries slots).length < slots.length) :
    ∃ (ix : ℕ) (b : Slot α), slots[ix]? = some b ∧ b.vacant = true := by
  by_contra hno
  have hlive : ∀ b ∈ slots, b.toOption.isSome = true := by
    intro b hb
    obtain ⟨ix, hix⟩ := List.mem_iff_getElem?.mp hb
    rw [Option.isSome_iff_ne_none]
    exact fun hnone => hno ⟨ix, b, hix, Slot.toOption_eq_none.mp hnone⟩
  exact absurd (List.filterMap_length_eq_length.mpr hlive) (by unfold entries at h; omega)

theorem entries_set {slots : List (Slot α)} {ix : ℕ} {b : Slot α} (h : slots[ix]? = some b) :
    ∃ rest, (entries slots).Perm (b.toOption.toList ++ rest) ∧
      ∀ c, (entries (slots.set ix c)).Perm (c.toOption.toList ++ rest) := by
  obtain ⟨hlt, rfl⟩ := List.getElem?_eq_some_iff.mp h
  -- The table is the slots before `ix`, slot `ix`, and the slots after it.
  have split : ∀ c, entries (slots.set ix c) =
      entries (slots.take ix) ++ (c.toOption.toList ++ entries (slots.drop (ix + 1))) := fun c => by
    rw [List.set_eq_take_append_cons_drop, if_pos hlt, entries_append]
    congr 1
    cases c <;> simp [entries, List.filterMap_cons]
  have perm : ∀ c, (entries (slots.set ix c)).Perm
      (c.toOption.toList ++ (entries (slots.take ix) ++ entries (slots.drop (ix + 1)))) := fun c => by
    rw [split c, ← List.append_assoc, ← List.append_assoc]
    exact List.perm_append_comm.append_right _
  refine ⟨_, ?_, perm⟩
  have := perm slots[ix]
  rwa [List.set_getElem_self] at this

section Keyed
variable {key : α → κ} {path : κ → ℕ → Option ℕ} {n : ℕ} {slots : List (Slot α)}

/-- Every entry is on the path of its key: the probe-path invariant. -/
def Reaches (key : α → κ) (path : κ → ℕ → Option ℕ) (n : ℕ) (slots : List (Slot α)) : Prop :=
  ∀ ix a, slots[ix]? = some (.live a) → OnPath (path (key a)) n slots ix

theorem reaches_replicate_null (m : ℕ) : Reaches key path n (List.replicate m .null) := by
  intro ix a h
  simp [List.getElem?_replicate] at h

/-- Any update that puts no `null` back, and puts an entry only on the path of its key, keeps the
    invariant: an insertion, a tombstone and an overwrite in place alike. -/
theorem Reaches.set (h : Reaches key path n slots) {ix : ℕ} {c : Slot α} (hc : c ≠ .null)
    (hp : ∀ a, c = .live a → OnPath (path (key a)) n slots ix) : Reaches key path n (slots.set ix c) := by
  intro jx a hjx
  rw [List.getElem?_set] at hjx
  split at hjx
  · rename_i heq
    subst heq
    split at hjx
    · exact (hp a (Option.some.inj hjx)).set hc
    · cases hjx
  · exact (h jx a hjx).set hc

/-! ### Distinct keys -/

/-- No two entries have the same key. -/
def Distinct (key : α → κ) (l : List α) : Prop := (l.map key).Nodup

theorem Distinct.perm {l l' : List α} (h : Distinct key l) (hp : l'.Perm l) : Distinct key l' :=
  (hp.map key).nodup_iff.mpr h

theorem Distinct.subperm {l l' : List α} (h : Distinct key l) (hp : l'.Subperm l) : Distinct key l' := by
  obtain ⟨m, hm, hsub⟩ := hp
  exact Distinct.perm (h.sublist (hsub.map key)) hm.symm

theorem Distinct.cons {l : List α} {a : α} (h : Distinct key l) (ha : ∀ b ∈ l, key b ≠ key a) :
    Distinct key (a :: l) := by
  simp only [Distinct, List.map_cons, List.nodup_cons, List.mem_map, not_exists, not_and]
  exact ⟨ha, h⟩

theorem Distinct.eq_of_key {l : List α} (h : Distinct key l) {a b : α} (ha : a ∈ l) (hb : b ∈ l)
    (hk : key a = key b) : a = b := List.inj_on_of_nodup_map h ha hb hk

theorem Distinct.slots_inj (hd : Distinct key (entries slots)) {ix jx : ℕ} {a b : α}
    (ha : slots[ix]? = some (.live a)) (hb : slots[jx]? = some (.live b)) (hk : key a = key b) : ix = jx := by
  by_contra hne
  -- Freeing slot `ix` removes one of the two entries, and the other is still there.
  obtain ⟨rest, hperm, hset⟩ := entries_set ha
  have hd' : Distinct key (a :: rest) := hd.perm hperm.symm
  have hb' : b ∈ rest := by
    have : b ∈ entries (slots.set ix .deleted) :=
      mem_entries.mpr ⟨jx, by rw [List.getElem?_set_ne hne]; exact hb⟩
    simpa using (hset .deleted).mem_iff.mp this
  simp only [Distinct, List.map_cons, List.nodup_cons, List.mem_map, not_exists, not_and] at hd'
  exact hd'.1 b hb' hk.symm

/-! ### Searches -/

variable [DecidableEq κ]

/-- A search stops at a slot that was never used and at an entry with the key. -/
def seekStop (key : α → κ) (k : κ) : Slot α → Bool
  | .null => true
  | .deleted => false
  | .live a => key a = k

/-- The probe loop of a search for `k`. -/
def seek (key : α → κ) (path : κ → ℕ → Option ℕ) (n : ℕ) (slots : List (Slot α)) (k : κ) : Walk (ℕ × Slot α) :=
  walk (look (path k) slots) (fun p => seekStop key k p.2) 0 n

theorem seek_hit {k : κ} {ix : ℕ} {b : Slot α} (h : seek key path n slots k = .hit (ix, b)) :
    slots[ix]? = some b ∧ seekStop key k b = true := by
  obtain ⟨j, -, -, hlook, hstop, -⟩ := walk_eq_hit.mp h
  exact ⟨(look_eq_some.mp hlook).2, hstop⟩

theorem seek_live {k : κ} {ix : ℕ} {a : α} (h : seek key path n slots k = .hit (ix, .live a)) :
    slots[ix]? = some (.live a) ∧ key a = k := by
  obtain ⟨hix, hs⟩ := seek_hit h
  exact ⟨hix, by simpa [seekStop] using hs⟩

theorem seek_ne_deleted {k : κ} {ix : ℕ} : seek key path n slots k ≠ .hit (ix, .deleted) := by
  intro h
  have := (seek_hit h).2
  simp [seekStop] at this

theorem Reaches.seek_of_live (h : Reaches key path n slots) {ix : ℕ} {a : α}
    (ha : slots[ix]? = some (.live a)) :
    ∃ jx a', seek key path n slots (key a) = .hit (jx, .live a') ∧ key a' = key a := by
  obtain ⟨j, hj, hlook, hused⟩ := (h ix a ha).live ha
  obtain ⟨i, hij, ⟨jx, b⟩, hb, hs, hwalk⟩ := walk_of_stop (fun p => seekStop key (key a) p.2) hj hlook
    (by simp [seekStop]) fun i hi => by
      obtain ⟨_, _, hl, -⟩ := hused i (Nat.le_of_lt hi)
      simp [hl]
  cases b with
  | null =>
    obtain ⟨_, _, hl, hne⟩ := hused i hij
    rw [hb] at hl
    cases hl
    exact absurd rfl hne
  | deleted => simp [seekStop] at hs
  | live a' => exact ⟨jx, a', hwalk, by simpa [seekStop] using hs⟩

theorem Reaches.absent (h : Reaches key path n slots) {k : κ}
    (hs : seek key path n slots k = .miss ∨ ∃ ix, seek key path n slots k = .hit (ix, .null)) :
    ∀ a ∈ entries slots, key a ≠ k := by
  rintro a ha rfl
  obtain ⟨ix, hix⟩ := mem_entries.mp ha
  obtain ⟨jx, a', hseek, -⟩ := h.seek_of_live hix
  rcases hs with hs | ⟨ix', hs⟩ <;> rw [hseek] at hs <;> cases hs

/-- Among entries with distinct keys, a search finds exactly the entry of its key. -/
theorem Reaches.seek_eq (h : Reaches key path n slots) (hd : Distinct key (entries slots)) {a : α}
    (ha : a ∈ entries slots) : ∃ ix, seek key path n slots (key a) = .hit (ix, .live a) := by
  obtain ⟨ix, hix⟩ := mem_entries.mp ha
  obtain ⟨jx, a', hseek, hk⟩ := h.seek_of_live hix
  have ha' : a' ∈ entries slots := mem_entries.mpr ⟨jx, (seek_live hseek).1⟩
  exact ⟨jx, (hd.eq_of_key ha' ha hk) ▸ hseek⟩

end Keyed

end Probing
