import MemKey.Table
import MemKey.Theorems.Helper

/-! The table over whole runs: its representation invariant, what an insertion, a resize, a search and a
    removal do to it, and that the depth of the recursion between insertion and resize is bounded. -/

namespace MemKey
open Probing Outcome

/-- The only fault a table runs into: a probe whose `int` product has wrapped below zero. -/
def Escapes (m : IntMode) (e : Fault) : Prop := m = .wrap ∧ e = .outOfBounds

theorem Escapes.exact {e : Fault} (h : Escapes .exact e) : False := nomatch h.1

namespace Table
variable {α : Type} {m : IntMode} {key : α → Bytes} {compare : Bool} {t : Table α} {a : α} {k : Bytes}

/-- The representation invariant. The counter may exceed the number of live entries: a resize that finds
    no slot for an entry drops it and keeps the counter. -/
structure WF (m : IntMode) (key : α → Bytes) (t : Table α) : Prop where
  length : t.slots.length = t.size
  two_le : 2 ≤ t.size
  fits : m = .wrap → t.size < 2 ^ 31
  reaches : Reaches key (probePath m t.size) t.size t.slots
  counted : (t.entries.length : Int) ≤ t.used

@[simp] theorem entries_init (size : Int) : (init size : Table α).entries = [] :=
  entries_replicate_null _

@[simp] theorem used_init (size : Int) : (init size : Table α).used = 0 := rfl

theorem le_size_init (size : Int) : size ≤ (init size : Table α).size := by
  have := le_nextPrime size
  have := two_le_nextPrime size
  simp only [init]
  omega

theorem init_wf {size : Int} (h : m = .wrap → size < 2 ^ 31) : (init size : Table α).WF m key where
  length := List.length_replicate
  two_le := by
    have := two_le_nextPrime size
    simp only [init]
    omega
  fits hm := by
    have := nextPrime_lt (h hm)
    simp only [init]
    omega
  reaches := reaches_replicate_null _
  counted := by simp

/-! ### Probes -/

theorem WF.look_isSome (hw : t.WF .exact key) (i : ℕ) :
    (look (probePath .exact t.size k) t.slots i).isSome := by
  have hpos : 0 < t.size := by have := hw.two_le; omega
  have hlt : (djb2 k t.size + i * sdbm k t.size) % t.size < t.slots.length := by
    rw [hw.length]
    exact Nat.mod_lt _ hpos
  simp [look, probePath_exact, List.getElem?_eq_getElem hlt]

/-- A probe loop leaves the table only through a wrapped product. -/
theorem WF.wraps (hw : t.WF m key) {stop : ℕ × Slot α → Bool} {n : ℕ}
    (h : walk (look (probePath m t.size k) t.slots) stop 0 n = .outside) : m = .wrap := by
  cases m
  · exact absurd h (walk_ne_outside fun i _ _ => hw.look_isSome i)
  · rfl

theorem find_some {ix : ℕ} (h : find m key t k = .ok (some (ix, a))) :
    t.slots[ix]? = some (.live a) ∧ key a = k := by
  unfold find at h
  split at h
  · cases h
  · cases h
    exact seek_live ‹_›
  · cases h

theorem WF.find_none (hw : t.WF m key) (h : find m key t k = .ok none) : ∀ a ∈ t.entries, key a ≠ k := by
  unfold find at h
  split at h
  · cases h
  · cases h
  · rename_i hnot hlive
    refine hw.reaches.absent ?_
    cases hs : seek key (probePath m t.size) t.size t.slots k with
    | outside => exact absurd hs hnot
    | miss => exact .inl rfl
    | hit p =>
      obtain ⟨ix, b⟩ := p
      cases b with
      | null => exact .inr ⟨ix, rfl⟩
      | deleted => exact absurd hs seek_ne_deleted
      | live b => exact absurd hs (hlive ix b)

theorem WF.find_error (hw : t.WF m key) {e : Fault} (h : find m key t k = .error e) : Escapes m e := by
  unfold find at h
  split at h
  · cases h
    exact ⟨hw.wraps ‹_›, rfl⟩
  · cases h
  · cases h

theorem WF.find_spec (hw : t.WF m key) (k : Bytes) :
    Ensures (find m key t k) (fun r => r.isSome = true ↔ ∃ a ∈ t.entries, key a = k) (Escapes m) := by
  cases hfind : find m key t k with
  | error e => exact hw.find_error hfind
  | ok r =>
    cases r with
    | none => exact ⟨fun h => absurd h (by simp), fun ⟨a, ha, hk⟩ => absurd hk (hw.find_none hfind a ha)⟩
    | some p =>
      obtain ⟨hix, hk⟩ := find_some hfind
      exact ⟨fun _ => ⟨p.2, mem_entries.mpr ⟨p.1, hix⟩, hk⟩, fun _ => rfl⟩

theorem WF.find_eq (hw : t.WF m key) (hd : Distinct key t.entries) (ha : a ∈ t.entries) :
    ∃ ix, find m key t (key a) = .ok (some (ix, a)) := by
  obtain ⟨ix, hs⟩ := hw.reaches.seek_eq hd ha
  exact ⟨ix, by simp [find, hs]⟩

/-! ### Single slots -/

theorem WF.update (hw : t.WF m key) {ix : ℕ} {c : Slot α} {u : Int} (hc : c ≠ .null)
    (hp : ∀ a, c = .live a → OnPath (probePath m t.size (key a)) t.size t.slots ix)
    (hu : ((Probing.entries (t.slots.set ix c)).length : Int) ≤ u) :
    WF m key { t with slots := t.slots.set ix c, used := u } where
  length := by rw [List.length_set, hw.length]
  two_le := hw.two_le
  fits := hw.fits
  reaches := hw.reaches.set hc hp
  counted := hu

theorem place_perm {ix : ℕ} {b : Slot α} (h : t.slots[ix]? = some b) (hb : b.vacant = true) :
    (t.place ix a).entries.Perm (a :: t.entries) := by
  obtain ⟨rest, hperm, hset⟩ := entries_set h
  rw [Slot.toOption_eq_none.mpr hb] at hperm
  exact (hset (.live a)).trans (hperm.symm.cons a)

theorem bury_perm {ix : ℕ} (h : t.slots[ix]? = some (.live a)) :
    t.entries.Perm (a :: (t.bury ix).entries) := by
  obtain ⟨rest, hperm, hset⟩ := entries_set h
  exact hperm.trans ((hset .deleted).symm.cons a)

theorem put_perm {ix : ℕ} (h : t.slots[ix]? = some (.live a)) (a' : α) :
    ∃ rest, t.entries.Perm (a :: rest) ∧ (t.put ix a').entries.Perm (a' :: rest) := by
  obtain ⟨rest, hperm, hset⟩ := entries_set h
  exact ⟨rest, hperm, hset (.live a')⟩

theorem WF.place (hw : t.WF m key) {ix : ℕ} {b : Slot α} (h : t.slots[ix]? = some b) (hb : b.vacant = true)
    (hp : OnPath (probePath m t.size (key a)) t.size t.slots ix) : (t.place ix a).WF m key := by
  refine hw.update (by simp) (fun _ ha => by cases ha; exact hp) ?_
  have hlen : (t.place ix a).entries.length = t.entries.length + 1 := (place_perm h hb).length_eq
  have := hw.counted
  exact_mod_cast show ((t.place ix a).entries.length : Int) ≤ t.used + 1 by omega

theorem WF.bury (hw : t.WF m key) {ix : ℕ} (h : t.slots[ix]? = some (.live a)) : (t.bury ix).WF m key := by
  refine hw.update (by simp) (fun _ ha => by cases ha) ?_
  have hlen : t.entries.length = (t.bury ix).entries.length + 1 := (bury_perm h).length_eq
  have := hw.counted
  exact_mod_cast show ((t.bury ix).entries.length : Int) ≤ t.used - 1 by omega

theorem WF.put (hw : t.WF m key) {ix : ℕ} (h : t.slots[ix]? = some (.live a)) {a' : α}
    (hk : key a' = key a) : (t.put ix a').WF m key := by
  refine hw.update (by simp) (fun _ ha => by cases ha; rw [hk]; exact hw.reaches ix a h) ?_
  obtain ⟨rest, hperm, hput⟩ := put_perm h a'
  have hlen : (t.put ix a').entries.length = t.entries.length := by
    rw [hput.length_eq, hperm.length_eq, List.length_cons, List.length_cons]
  have := hw.counted
  exact_mod_cast show ((t.put ix a').entries.length : Int) ≤ t.used by omega

/-! ### Insertions -/

theorem load_le (hw : t.WF m key) {c : Int} (h : t.used * 100 < (c + 1) * t.size) :
    load m t ≤ c := by
  have hused := hw.counted
  have hle : m.int (t.used * 100) ≤ t.used * 100 := m.int_le (by omega)
  have hpos : (0 : Int) < t.size := by have := hw.two_le; omega
  have hmono : load m t ≤ (t.used * 100).tdiv t.size := Int.tdiv_le_tdiv hpos hle
  rw [Int.tdiv_eq_ediv_of_nonneg (by omega)] at hmono
  have : t.used * 100 / t.size < c + 1 := Int.ediv_lt_of_lt_mul hpos h
  omega

theorem WF.add_hit (hw : t.WF m key) {ix : ℕ} {b : Slot α} (hwalk : addWalk m key compare t a = .hit (ix, b))
    (hb : b.vacant = true) (depth : ℕ) :
    (t.place ix a).WF m key ∧ (t.place ix a).entries.Perm (a :: t.entries) ∧
      add m key compare (depth + 1) t a =
        (do .ok (← resizeUp m (add m key compare depth) (t.place ix a), true)) := by
  obtain ⟨_, -, -, hlook, -, -⟩ := walk_eq_hit.mp hwalk
  have hix := (look_eq_some.mp hlook).2
  refine ⟨hw.place hix hb (OnPath.of_walk (fun _ => rfl) hwalk), place_perm hix hb, ?_⟩
  rw [add, hwalk]
  cases b with
  | live b => cases hb
  | null => rfl
  | deleted => rfl

theorem WF.place_load (hw : t.WF m key) (hload : (t.used + 1) * 100 < 71 * t.size) {ix : ℕ} {b : Slot α}
    (hwalk : addWalk m key compare t a = .hit (ix, b)) (hb : b.vacant = true) : load m (t.place ix a) ≤ 70 :=
  load_le (hw.add_hit hwalk hb 0).1 hload

/-- An entry that leaves a load of 70 or less is only placed. -/
theorem WF.add_place (hw : t.WF m key) (hload : (t.used + 1) * 100 < 71 * t.size) {ix : ℕ} {b : Slot α}
    (hwalk : addWalk m key compare t a = .hit (ix, b)) (hb : b.vacant = true) (depth : ℕ) :
    add m key compare (depth + 1) t a = .ok (t.place ix a, true) := by
  have hle := hw.place_load hload hwalk hb
  rw [(hw.add_hit hwalk hb depth).2.2, resizeUp, if_neg (by omega)]
  rfl

theorem probePath_zero (m : IntMode) (size : ℕ) (k : Bytes) : probePath m size k 0 = some (djb2 k size % size) := by
  refine probePath_eq_some.mpr ?_
  rw [hashFunc, if_pos rfl, Int.tmod_eq_emod_of_nonneg (by positivity)]
  norm_cast

/-- An insertion into a new table stops at its first probe. -/
theorem addWalk_init (size : Int) (compare : Bool) (a : α) :
    ∃ ix, addWalk m key compare (init size) a = .hit (ix, .null) := by
  have hpos : 0 < (init size : Table α).size := by
    have := two_le_nextPrime size
    simp only [init]
    omega
  have hslot : (init size : Table α).slots[djb2 (key a) (init size : Table α).size % (init size : Table α).size]? =
      some .null := List.getElem?_replicate_of_lt (Nat.mod_lt _ hpos)
  have hlook := look_eq_some.mpr ⟨probePath_zero m (init size : Table α).size (key a), hslot⟩
  exact ⟨_, walk_eq_hit.mpr ⟨0, Nat.le_refl 0, by omega, hlook, rfl, fun l _ hl => by omega⟩⟩

/-- The three ends of an insertion: its probes leave the table, it stores nothing, or it stops at a free
    slot. -/
theorem WF.add_cases (hw : t.WF m key) (compare : Bool) (depth : ℕ) (a : α) :
    (m = .wrap ∧ add m key compare (depth + 1) t a = .error .outOfBounds) ∨
    add m key compare (depth + 1) t a = .ok (t, false) ∨
    ∃ ix b, addWalk m key compare t a = .hit (ix, b) ∧ b.vacant = true := by
  unfold add
  cases hwalk : addWalk m key compare t a with
  | outside => exact .inl ⟨hw.wraps hwalk, rfl⟩
  | miss => exact .inr (.inl rfl)
  | hit p =>
    obtain ⟨ix, b⟩ := p
    cases b with
    | live b => exact .inr (.inl rfl)
    | null => exact .inr (.inr ⟨ix, _, rfl, rfl⟩)
    | deleted => exact .inr (.inr ⟨ix, _, rfl, rfl⟩)

/-- What an insertion leaves: at most the old entries and the new one, counted if it was stored. -/
structure Added (m : IntMode) (key : α → Bytes) (t : Table α) (a : α) (r : Table α × Bool) : Prop where
  wf : r.1.WF m key
  sub : r.1.entries.Subperm (a :: t.entries)
  used : r.1.used = t.used + if r.2 then 1 else 0
  stays : r.2 = false → r.1 = t

theorem WF.added_none (hw : t.WF m key) : Added m key t a (t, false) :=
  ⟨hw, (List.sublist_cons_self a t.entries).subperm, by simp, fun _ => rfl⟩

theorem WF.add_fit (hw : t.WF m key) (depth : ℕ) (hload : (t.used + 1) * 100 < 71 * t.size) :
    Ensures (add m key compare (depth + 1) t a) (fun r => Added m key t a r ∧ r.1.size = t.size)
      (Escapes m) := by
  rcases hw.add_cases compare depth a with ⟨hm, h⟩ | h | ⟨ix, b, hwalk, hb⟩
  · rw [h]
    exact ⟨hm, rfl⟩
  · rw [h]
    exact ⟨hw.added_none, rfl⟩
  · obtain ⟨hplace, hperm, -⟩ := hw.add_hit hwalk hb depth
    rw [hw.add_place hload hwalk hb depth]
    exact ⟨⟨hplace, hperm.subperm, by simp [Table.place], by simp⟩, rfl⟩

/-- The table can take the entries without growing. -/
def Room (t : Table α) (l : List α) : Prop := (t.used + l.length) * 100 < 71 * t.size

section Room
variable {l : List α}

theorem room_init {new : Int} (h : (l.length : Int) * 100 < 71 * new) : Room (init new) l := by
  have hle := le_size_init (α := α) new
  rw [Room, used_init]
  omega

theorem room_cons : Room t (a :: l) ↔ (t.used + 1 + l.length) * 100 < 71 * t.size := by
  rw [Room, List.length_cons, Nat.cast_add, Nat.cast_one, Int.add_comm (l.length : Int), ← Int.add_assoc]

theorem room_place {ix : ℕ} : Room (t.place ix a) l ↔ Room t (a :: l) := room_cons.symm

theorem Room.head (hroom : Room t (a :: l)) : (t.used + 1) * 100 < 71 * t.size := by
  have := room_cons.mp hroom
  omega

/-- After the insertion of an entry there is still room for the others. -/
theorem WF.room_tail {t' : Table α} {b : Bool} {depth : ℕ} (hw : t.WF m key) (hroom : Room t (a :: l))
    (h : add m key compare (depth + 1) t a = .ok (t', b)) : t'.WF m key ∧ Room t' l ∧ t'.size = t.size := by
  obtain ⟨hadd, hsize⟩ := (hw.add_fit depth hroom.head).of_ok h
  have hused : t'.used ≤ t.used + 1 := by
    have := hadd.used
    dsimp only at this
    split at this <;> omega
  dsimp only at hsize
  refine ⟨hadd.wf, ?_, hsize⟩
  have := room_cons.mp hroom
  rw [Room, hsize]
  omega

end Room

/-- What re-inserting a list of entries leaves. -/
structure Refilled (m : IntMode) (key : α → Bytes) (t : Table α) (l : List α) (t' : Table α) : Prop where
  wf : t'.WF m key
  sub : t'.entries.Subperm (l ++ t.entries)

theorem WF.refill_fit {l : List α} (hw : t.WF m key) (compare : Bool) (depth : ℕ) (hroom : Room t l) :
    Ensures (refill (add m key compare (depth + 1)) t l) (Refilled m key t l) (Escapes m) := by
  induction l generalizing t with
  | nil => exact ⟨hw, List.Subperm.refl _⟩
  | cons a l ih =>
    refine (hw.add_fit depth hroom.head).bind fun ⟨t', stored⟩ h ⟨hadd, _⟩ => ?_
    obtain ⟨hw', hroom', -⟩ := hw.room_tail hroom h
    refine (ih hw' hroom').post fun t'' hfill => ⟨hfill.wf, ?_⟩
    exact hfill.sub.trans (((List.subperm_append_left l).mpr hadd.sub).trans List.perm_middle.subperm)

/-- A resize keeps the counter and at most the entries. -/
structure Resized (m : IntMode) (key : α → Bytes) (t t' : Table α) : Prop where
  wf : t'.WF m key
  sub : t'.entries.Subperm t.entries
  used : t'.used = t.used

theorem WF.resized_self (hw : t.WF m key) : Resized m key t t := ⟨hw, List.Subperm.refl _, rfl⟩

theorem WF.resize_of_refill {new : Int} {add : Table α → α → Except Fault (Table α × Bool)}
    (hw : t.WF m key) (h : 2 ≤ new →
      Ensures (refill add (init new) t.entries) (Refilled m key (init new) t.entries) (Escapes m)) :
    Ensures (resize add t new) (Resized m key t) (Escapes m) := by
  unfold resize
  refine .ite (fun _ => hw.resized_self) fun hnew => ?_
  refine (h (by omega)).bind fun t' _ hfill => ?_
  have hsub : t'.entries.Subperm t.entries := by simpa using hfill.sub
  have hlen : t'.entries.length ≤ t.entries.length := hsub.length_le
  refine ⟨⟨hfill.wf.length, hfill.wf.two_le, hfill.wf.fits, hfill.wf.reaches, ?_⟩, hsub, rfl⟩
  have := hw.counted
  exact_mod_cast show (t'.entries.length : Int) ≤ t.used by omega

/-- A doubled size that does not fit an `int` wraps below zero, so that a table only ever grows. -/
theorem WF.grow (hw : t.WF m key) (h : 2 ≤ m.int (t.size * 2)) : m.int (t.size * 2) = t.size * 2 := by
  cases m with
  | exact => rfl
  | wrap =>
    have := hw.fits rfl
    have hw32 : wrap32 (t.size * 2) = t.size * 2 ∨ wrap32 (t.size * 2) < 0 := by
      unfold wrap32
      rw [Int.bmod_def]
      norm_num
      split <;> omega
    simp only [IntMode.int] at h ⊢
    omega

theorem WF.length_entries (hw : t.WF m key) : t.entries.length ≤ t.size :=
  hw.length ▸ length_entries_le t.slots

/-- The entries leave room in a table of twice the size. -/
theorem WF.grow_room (hw : t.WF m key) (hnew : 2 ≤ m.int (t.size * 2)) :
    (t.entries.length : Int) * 100 < 71 * m.int (t.size * 2) := by
  have := hw.length_entries
  have := hw.two_le
  rw [hw.grow hnew]
  omega

/-- The table grows into one of twice the size or more, where no re-insertion resizes. -/
theorem WF.resizeUp_spec (hw : t.WF m key) (compare : Bool) (depth : ℕ) :
    Ensures (resizeUp m (add m key compare (depth + 1)) t) (Resized m key t) (Escapes m) := by
  unfold resizeUp
  refine .ite (fun _ => hw.resize_of_refill fun hnew => ?_) fun _ => hw.resized_self
  exact WF.refill_fit (init_wf (IntMode.int_lt _)) compare depth (room_init (hw.grow_room hnew))

theorem WF.add_spec (hw : t.WF m key) (depth : ℕ) (a : α) :
    Ensures (add m key compare (depth + 2) t a) (Added m key t a) (Escapes m) := by
  rcases hw.add_cases compare (depth + 1) a with ⟨hm, h⟩ | h | ⟨ix, b, hwalk, hb⟩
  · rw [h]
    exact ⟨hm, rfl⟩
  · rw [h]
    exact hw.added_none
  · obtain ⟨hplace, hperm, h⟩ := hw.add_hit hwalk hb (depth + 1)
    rw [h]
    refine (hplace.resizeUp_spec compare depth).bind fun t' _ hup => ?_
    exact ⟨hup.wf, hup.sub.trans hperm.subperm, by simpa [Table.place] using hup.used, by simp⟩

theorem WF.refill_spec {l : List α} (hw : t.WF m key) (depth : ℕ) :
    Ensures (refill (add m key compare (depth + 2)) t l) (Refilled m key t l) (Escapes m) := by
  induction l generalizing t with
  | nil => exact ⟨hw, List.Subperm.refl _⟩
  | cons a l ih =>
    refine (hw.add_spec depth a).bind fun ⟨t', _⟩ _ hadd => ?_
    refine (ih hadd.wf).post fun t'' hfill => ⟨hfill.wf, ?_⟩
    exact hfill.sub.trans (((List.subperm_append_left l).mpr hadd.sub).trans List.perm_middle.subperm)

theorem WF.resizeDown_spec (hw : t.WF m key) (depth : ℕ) :
    Ensures (resizeDown m (add m key compare (depth + 2)) t) (Resized m key t) (Escapes m) := by
  unfold resizeDown
  refine .ite (fun _ => hw.resize_of_refill fun _ => ?_) fun _ => hw.resized_self
  refine WF.refill_spec (init_wf fun hm => ?_) depth
  have := hw.fits hm
  omega

/-- What a removal leaves: at most the other entries, and the counter one lower if there was one to
    remove. -/
structure Removed (m : IntMode) (key : α → Bytes) (t : Table α) (k : Bytes) (r : Table α × Bool) : Prop where
  wf : r.1.WF m key
  gone : r.2 = true → ∃ a, key a = k ∧ (a :: r.1.entries).Subperm t.entries ∧ r.1.used = t.used - 1
  stays : r.2 = false → r.1 = t ∧ ∀ a ∈ t.entries, key a ≠ k

theorem WF.remove_spec (hw : t.WF m key) (k : Bytes) :
    Ensures (remove m key compare t k) (Removed m key t k) (Escapes m) := by
  unfold remove
  cases hfind : find m key t k with
  | error e => exact hw.find_error hfind
  | ok r =>
    cases r with
    | none => exact ⟨hw, by simp, fun _ => ⟨rfl, hw.find_none hfind⟩⟩
    | some p =>
      obtain ⟨ix, a⟩ := p
      obtain ⟨ha, hk⟩ := find_some hfind
      refine ((hw.bury ha).resizeDown_spec 0).bind fun t' _ hdown => ?_
      refine ⟨hdown.wf, fun _ => ⟨a, hk, ?_, ?_⟩, by simp⟩
      · exact ((List.subperm_cons a).mpr hdown.sub).trans (bury_perm ha).symm.subperm
      · simpa [Table.bury] using hdown.used

/-! ### Distinct keys -/

theorem Added.distinct {r : Table α × Bool} (h : Added m key t a r) (hd : Distinct key t.entries)
    (hnew : r.2 = true → ∀ b ∈ t.entries, key b ≠ key a) : Distinct key r.1.entries := by
  cases hb : r.2 with
  | false =>
    rw [h.stays hb]
    exact hd
  | true => exact (hd.cons (hnew hb)).subperm h.sub

theorem Removed.distinct {r : Table α × Bool} (h : Removed m key t k r) (hd : Distinct key t.entries) :
    Distinct key r.1.entries := by
  cases hb : r.2 with
  | false =>
    rw [(h.stays hb).1]
    exact hd
  | true =>
    obtain ⟨a, -, hsub, -⟩ := h.gone hb
    exact hd.subperm ((List.sublist_cons_self a r.1.entries).subperm.trans hsub)

theorem Removed.absent {r : Table α × Bool} (h : Removed m key t k r) (hd : Distinct key t.entries) :
    ∀ b ∈ r.1.entries, key b ≠ k := by
  cases hb : r.2 with
  | false =>
    rw [(h.stays hb).1]
    exact (h.stays hb).2
  | true =>
    -- The entries before held the removed one next to all that are left.
    obtain ⟨a, rfl, hsub, -⟩ := h.gone hb
    have hcons : Distinct key (a :: r.1.entries) := hd.subperm hsub
    simp only [Distinct, List.map_cons, List.nodup_cons, List.mem_map, not_exists, not_and] at hcons
    exact fun b hb => hcons.1 b hb

theorem put_distinct (hd : Distinct key t.entries) {ix : ℕ} {a' : α} (h : t.slots[ix]? = some (.live a))
    (hk : key a' = key a) : Distinct key (t.put ix a').entries := by
  obtain ⟨rest, hperm, hput⟩ := put_perm h a'
  have hcons : Distinct key (a :: rest) := hd.perm hperm.symm
  refine Distinct.perm (l := a' :: rest) ?_ hput
  simpa only [Distinct, List.map_cons, hk] using hcons

/-! ### Insertions that lose nothing -/

/-- The insertions of the entries, one after another, all stop, and at a slot that is `good`. -/
def Places (m : IntMode) (key : α → Bytes) (compare : Bool) (good : Slot α → Bool) : Table α → List α → Prop
  | _, [] => True
  | t, a :: as => ∃ ix b, addWalk m key compare t a = .hit (ix, b) ∧ good b = true ∧
      Places m key compare good (if b.vacant then t.place ix a else t) as

/-- The same for the entries that a resize moves into a table of `new` slots. -/
def Refills (m : IntMode) (key : α → Bytes) (compare : Bool) (good : Slot α → Bool) (new : Int) (l : List α) : Prop :=
  2 ≤ new → Places m key compare good (init new) l

/-- If the table grows as slot `ix` takes `a`, so do the insertions of all entries into the larger table. -/
def Grows (m : IntMode) (key : α → Bytes) (compare : Bool) (good : Slot α → Bool) (t : Table α) (ix : ℕ) (a : α) : Prop :=
  load m (t.place ix a) > 70 → Refills m key compare good (m.int (t.size * 2)) (t.place ix a).entries

/-- If the table shrinks without the entry of `k`, so do the insertions of all others into the smaller table, and the
    percentage that made it shrink did not overflow. -/
def Shrinks (m : IntMode) (key : α → Bytes) (compare : Bool) (good : Slot α → Bool) (t : Table α) (k : Bytes) : Prop :=
  ∀ ix a, find m key t k = .ok (some (ix, a)) → load m (t.bury ix) < 10 →
    m.int ((t.used - 1) * 100) = (t.used - 1) * 100 ∧
      Refills m key compare good (t.size / 2 : ℕ) (t.bury ix).entries

/-- The path of the key of `a` has a free slot, and if the table then grows, every entry finds one in the larger
    table. -/
def AddFits (m : IntMode) (key : α → Bytes) (t : Table α) (a : α) : Prop :=
  ∃ ix b, addWalk m key false t a = .hit (ix, b) ∧ Grows m key false Slot.vacant t ix a

/-- If the table shrinks without the entry of `k`, every other entry finds a slot in the smaller table, and
    the percentage that made it shrink did not overflow. -/
def RemoveFits (m : IntMode) (key : α → Bytes) (t : Table α) (k : Bytes) : Prop :=
  Shrinks m key false Slot.vacant t k

section Decide
variable {good : Slot α → Bool}

instance decidablePlaces : (t : Table α) → (l : List α) → Decidable (Places m key compare good t l)
  | _, [] => isTrue trivial
  | t, a :: as =>
    have (b : Slot α) (ix : ℕ) : Decidable (Places m key compare good (if b.vacant then t.place ix a else t) as) :=
      decidablePlaces _ as
    inferInstanceAs (Decidable (∃ ix b, addWalk m key compare t a = .hit (ix, b) ∧ good b = true ∧
      Places m key compare good (if b.vacant then t.place ix a else t) as))

instance (new : Int) : Decidable (Refills m key compare good new l) :=
  inferInstanceAs (Decidable (2 ≤ new → Places m key compare good (init new) l))

instance (ix : ℕ) : Decidable (Grows m key compare good t ix a) :=
  inferInstanceAs (Decidable (load m (t.place ix a) > 70 → Refills m key compare good _ _))

instance : Decidable (Shrinks m key compare good t k) := by
  unfold Shrinks
  infer_instance

instance : Decidable (AddFits m key t a) := by
  unfold AddFits
  infer_instance

instance : Decidable (RemoveFits m key t k) := inferInstanceAs (Decidable (Shrinks m key false Slot.vacant t k))

end Decide

/-- Without a comparison of keys an insertion depends on the key alone. -/
theorem addWalk_key {a' : α} (hk : key a = key a') : addWalk m key false t a = addWalk m key false t a' := by
  have hstop : (fun p : ℕ × Slot α => addStop key false a p.2) = fun p => addStop key false a' p.2 := by
    funext ⟨_, b⟩
    cases b <;> rfl
  rw [addWalk, addWalk, hk, hstop]

/-- Without a comparison of keys an insertion stops at free slots only. -/
theorem addWalk_vacant {p : ℕ × Slot α} (h : addWalk m key false t a = .hit p) : p.2.vacant = true := by
  obtain ⟨_, -, -, -, hstop, -⟩ := walk_eq_hit.mp h
  obtain ⟨ix, b⟩ := p
  cases b with
  | live b => cases hstop
  | null | deleted => rfl

theorem WF.refill_places (hw : t.WF m key) (depth : ℕ) (hroom : Room t l) (hp : Places m key compare Slot.vacant t l) :
    ∃ t', refill (add m key compare (depth + 1)) t l = .ok t' ∧ t'.entries.Perm (l ++ t.entries) := by
  induction l generalizing t with
  | nil => exact ⟨t, rfl, List.Perm.refl _⟩
  | cons a l ih =>
    obtain ⟨ix, b, hwalk, hb, hrest⟩ := hp
    rw [if_pos hb] at hrest
    obtain ⟨hplace, hperm, -⟩ := hw.add_hit hwalk hb depth
    obtain ⟨t', h, hp⟩ := ih hplace (room_place.mpr hroom) hrest
    refine ⟨t', by rw [refill, hw.add_place hroom.head hwalk hb depth]; exact h, ?_⟩
    exact hp.trans ((hperm.append_left l).trans List.perm_middle)

theorem refill_init_places {new : Int} (hnew : m = .wrap → new < 2 ^ 31) (depth : ℕ) (hroom : Room (init new) l)
    (hp : Places m key compare Slot.vacant (init new) l) :
    ∃ t', refill (add m key compare (depth + 1)) (init new) l = .ok t' ∧ t'.entries.Perm l := by
  obtain ⟨t', h, hperm⟩ := (init_wf hnew).refill_places depth hroom hp
  rw [entries_init, List.append_nil] at hperm
  exact ⟨t', h, hperm⟩

/-- Without a comparison of keys, insertions that keep all entries have found a slot for each. -/
theorem WF.places_of_refill {t' : Table α} (hw : t.WF m key) (depth : ℕ) (hroom : Room t l)
    (h : refill (add m key false (depth + 1)) t l = .ok t') (hp : t'.entries.Perm (l ++ t.entries)) :
    Places m key false Slot.vacant t l := by
  induction l generalizing t with
  | nil => trivial
  | cons a l ih =>
    rcases hw.add_cases false depth a with ⟨-, hadd⟩ | hadd | ⟨ix, b, hwalk, hb⟩
    · rw [refill, hadd] at h
      cases h
    · -- An entry that was not stored is missing at the end.
      obtain ⟨-, hroom', -⟩ := hw.room_tail hroom hadd
      rw [refill, hadd, ok_bind] at h
      have hlen := ((hw.refill_fit false depth hroom').of_ok h).sub.length_le
      have := hp.length_eq
      simp only [List.length_append, List.length_cons] at hlen this
      omega
    · obtain ⟨hplace, hperm, -⟩ := hw.add_hit hwalk hb depth
      rw [refill, hw.add_place hroom.head hwalk hb depth, ok_bind] at h
      refine ⟨ix, b, hwalk, hb, ?_⟩
      rw [if_pos hb]
      exact ih hplace (room_place.mpr hroom) h (hp.trans ((hperm.append_left l).trans List.perm_middle).symm)

/-- A resize into a table that leaves room keeps every entry exactly when all of them find a slot. -/
theorem resize_fits (m : IntMode) (key : α → Bytes) (t : Table α) {new : Int} (hnew : m = .wrap → new < 2 ^ 31) (depth : ℕ)
    (hroom : 2 ≤ new → (t.entries.length : Int) * 100 < 71 * new) :
    Refills m key false Slot.vacant new t.entries ↔
      ∃ t', resize (add m key false (depth + 1)) t new = .ok t' ∧ t'.entries.Perm t.entries := by
  unfold resize Refills
  by_cases h2 : new < 2
  · rw [if_pos h2]
    exact ⟨fun _ => ⟨t, rfl, List.Perm.refl _⟩, fun _ h => absurd h (by omega)⟩
  · rw [if_neg h2]
    have hload : Room (init new) t.entries := room_init (hroom (by omega))
    constructor
    · intro h
      obtain ⟨t', h, hp⟩ := refill_init_places hnew depth hload (h (by omega))
      exact ⟨{ t with size := t'.size, slots := t'.slots }, by rw [h]; rfl, hp⟩
    · rintro ⟨t', h, hp⟩ -
      obtain ⟨new', hnew', heq⟩ := bind_eq_ok.mp h
      cases heq
      refine (init_wf hnew).places_of_refill depth hload hnew' ?_
      rw [entries_init, List.append_nil]
      exact hp

theorem WF.half_lt (hw : t.WF m key) (hm : m = .wrap) : ((t.size / 2 : ℕ) : Int) < 2 ^ 31 := by
  have := hw.fits hm
  omega

theorem WF.load_lt (hw : t.WF m key) (hexact : m.int (t.used * 100) = t.used * 100) {c : Int} (h : load m t < c) :
    t.used * 100 < c * t.size := by
  have hcount := hw.counted
  have hpos : (0 : Int) < t.size := by have := hw.two_le; omega
  rw [load, hexact, Int.tdiv_eq_ediv_of_nonneg (by omega)] at h
  exact (Int.ediv_lt_iff_lt_mul hpos).mp h

/-- The counter leaves room in a table of half the size, if it counts less than a tenth of this one. -/
theorem WF.half_used (hw : t.WF m key) (hexact : m.int (t.used * 100) = t.used * 100) (hload : load m t < 10) :
    t.used * 100 < 71 * ((t.size / 2 : ℕ) : Int) := by
  have hlt := hw.load_lt hexact hload
  have hsize := hw.two_le
  omega

theorem WF.half_room (hw : t.WF m key) (hexact : m.int (t.used * 100) = t.used * 100) (hload : load m t < 10) :
    (t.entries.length : Int) * 100 < 71 * ((t.size / 2 : ℕ) : Int) := by
  have hused := hw.half_used hexact hload
  have hcount := hw.counted
  omega

section Keeps
variable {add : Table α → α → Except Fault (Table α × Bool)} {R : List α → Prop}

/-- A resize leaves the entries as they are or moves them into a new table with room for them. -/
theorem resize_keeps {new : Int} (t : Table α) (hself : R t.entries)
    (hroom : 2 ≤ new → (t.entries.length : Int) * 100 < 71 * new)
    (h : 2 ≤ new → Room (init new) t.entries → ∃ t', refill add (init new) t.entries = .ok t' ∧ R t'.entries) :
    ∃ t', resize add t new = .ok t' ∧ R t'.entries := by
  unfold resize
  by_cases hlt : new < 2
  · exact ⟨t, if_pos hlt, hself⟩
  · have hload : Room (init new) t.entries := room_init (hroom (by omega))
    obtain ⟨t', h, hR⟩ := h (by omega) hload
    exact ⟨{ t with size := t'.size, slots := t'.slots }, by rw [if_neg hlt, h]; rfl, hR⟩

theorem WF.resizeUp_keeps (hw : t.WF m key) (hself : R t.entries)
    (h : load m t > 70 → 2 ≤ m.int (t.size * 2) → Room (init (m.int (t.size * 2))) t.entries →
      ∃ t', refill add (init (m.int (t.size * 2))) t.entries = .ok t' ∧ R t'.entries) :
    ∃ t', resizeUp m add t = .ok t' ∧ R t'.entries := by
  unfold resizeUp
  by_cases hload : load m t > 70
  · rw [if_pos hload]
    exact resize_keeps t hself hw.grow_room (h hload)
  · exact ⟨t, if_neg hload, hself⟩

theorem WF.resizeDown_keeps (hw : t.WF m key) (hself : R t.entries)
    (hexact : load m t < 10 → m.int (t.used * 100) = t.used * 100)
    (h : load m t < 10 → 2 ≤ ((t.size / 2 : ℕ) : Int) → Room (init (t.size / 2 : ℕ)) t.entries →
      ∃ t', refill add (init (t.size / 2 : ℕ)) t.entries = .ok t' ∧ R t'.entries) :
    ∃ t', resizeDown m add t = .ok t' ∧ R t'.entries := by
  unfold resizeDown
  by_cases hload : load m t < 10
  · rw [if_pos hload]
    exact resize_keeps t hself (fun _ => hw.half_room (hexact hload) hload) (h hload)
  · exact ⟨t, if_neg hload, hself⟩

end Keeps

theorem WF.resizeUp_fits (hw : t.WF m key) (depth : ℕ) :
    (load m t > 70 → Refills m key false Slot.vacant (m.int (t.size * 2)) t.entries) ↔
      ∃ t', resizeUp m (add m key false (depth + 1)) t = .ok t' ∧ t'.entries.Perm t.entries := by
  unfold resizeUp
  by_cases hload : load m t > 70
  · rw [if_pos hload, ← resize_fits m key t (IntMode.int_lt _) depth hw.grow_room]
    exact ⟨fun h => h hload, fun h _ => h⟩
  · rw [if_neg hload]
    exact ⟨fun _ => ⟨t, rfl, List.Perm.refl _⟩, fun _ h => absurd h hload⟩

theorem WF.resizeDown_fits (hw : t.WF m key) (hexact : m.int (t.used * 100) = t.used * 100) (depth : ℕ) :
    (load m t < 10 → Refills m key false Slot.vacant (t.size / 2 : ℕ) t.entries) ↔
      ∃ t', resizeDown m (add m key false (depth + 1)) t = .ok t' ∧ t'.entries.Perm t.entries := by
  unfold resizeDown
  by_cases hload : load m t < 10
  · rw [if_pos hload, ← resize_fits m key t hw.half_lt depth fun _ => hw.half_room hexact hload]
    exact ⟨fun h => h hload, fun h _ => h⟩
  · rw [if_neg hload]
    exact ⟨fun _ => ⟨t, rfl, List.Perm.refl _⟩, fun _ h => absurd h hload⟩

/-- An insertion stores the entry and keeps all others exactly when every entry that it puts into a table
    finds a slot there. -/
theorem WF.add_fits (hw : t.WF m key) (depth : ℕ) (a : α) :
    AddFits m key t a ↔
      ∃ t' b, add m key false (depth + 2) t a = .ok (t', b) ∧ t'.entries.Perm (a :: t.entries) := by
  have placed {ix : ℕ} {b : Slot α} (hwalk : addWalk m key false t a = .hit (ix, b)) (hb : b.vacant = true) :
      Grows m key false Slot.vacant t ix a ↔
        ∃ t' b, add m key false (depth + 2) t a = .ok (t', b) ∧ t'.entries.Perm (a :: t.entries) := by
    obtain ⟨hplace, hperm, h⟩ := hw.add_hit hwalk hb (depth + 1)
    rw [h]
    refine (hplace.resizeUp_fits depth).trans ⟨?_, ?_⟩
    · rintro ⟨t', h, hp⟩
      exact ⟨t', true, by rw [h]; rfl, hp.trans hperm⟩
    · rintro ⟨t', b, h, hp⟩
      obtain ⟨t'', hup, heq⟩ := bind_eq_ok.mp h
      cases heq
      exact ⟨t', hup, hp.trans hperm.symm⟩
  constructor
  · rintro ⟨ix, b, hv, hgrow⟩
    exact (placed hv (addWalk_vacant hv)).mp hgrow
  · rintro ⟨t', stored, h, hp⟩
    rcases hw.add_cases false (depth + 1) a with ⟨-, hadd⟩ | hadd | ⟨ix, b, hwalk, hb⟩
    · rw [hadd] at h
      cases h
    · rw [hadd] at h
      cases h
      exact absurd hp.length_eq (by simp)
    · exact ⟨ix, b, hwalk, (placed hwalk hb).mpr ⟨t', stored, h, hp⟩⟩

theorem remove_some {ix : ℕ} (hfind : find m key t k = .ok (some (ix, a))) :
    remove m key compare t k =
      (do .ok (← resizeDown m (add m key compare depth) (t.bury ix), true)) := by
  rw [remove, hfind]
  rfl

theorem WF.remove_fits (hw : t.WF m key) (hf : RemoveFits m key t k) {ix : ℕ}
    (hfind : find m key t k = .ok (some (ix, a))) :
    ∃ t', remove m key false t k = .ok (t', true) ∧ t.entries.Perm (a :: t'.entries) := by
  have ha := (find_some hfind).1
  have hshrink : ∃ t', resizeDown m (add m key false depth) (t.bury ix) = .ok t' ∧
      t'.entries.Perm (t.bury ix).entries := by
    by_cases hload : load m (t.bury ix) < 10
    · obtain ⟨hexact, hfill⟩ := hf ix a hfind hload
      exact ((hw.bury ha).resizeDown_fits hexact 1).mp fun _ => hfill
    · exact ⟨t.bury ix, if_neg hload, List.Perm.refl _⟩
  obtain ⟨t', h, hp⟩ := hshrink
  exact ⟨t', by rw [remove_some hfind, h]; rfl, (bury_perm ha).trans (hp.symm.cons a)⟩

/-- Without overflow, a removal that keeps all other entries fits. -/
theorem WF.fits_of_remove {t' : Table α} {b : Bool} (hw : t.WF .exact key)
    (h : remove .exact key false t k = .ok (t', b)) (hp : ∀ a ∈ t.entries, key a = k → t.entries.Perm (a :: t'.entries)) :
    RemoveFits .exact key t k := by
  intro ix a hfind hload
  obtain ⟨ha, hk⟩ := find_some hfind
  rw [remove_some hfind] at h
  obtain ⟨t'', hdown, heq⟩ := bind_eq_ok.mp h
  cases heq
  have hperm : t'.entries.Perm (t.bury ix).entries := by
    have := (hp a (mem_entries.mpr ⟨ix, ha⟩) hk).symm.trans (bury_perm ha)
    exact (List.perm_cons a).mp this
  exact ⟨rfl, ((hw.bury ha).resizeDown_fits rfl 1).mpr ⟨t', hdown, hperm⟩ hload⟩

end Table
end MemKey
