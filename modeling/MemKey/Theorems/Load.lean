import MemKey.Theorems.Htable

/-! The size of a table and its load. A table has a prime number of slots and counts at most 70 of 100 of them,
    so that an insertion finds one that is not taken. A resize moves so few entries that its new table does not
    grow in turn. -/

namespace MemKey
open Probing Outcome

namespace Table
variable {α : Type} {m : IntMode} {key : α → Bytes} {compare : Bool} {t t' : Table α} {a : α} {k : Bytes} {l : List α}
  {b : Bool} {new : Int} {depth : ℕ}

/-- Before each insertion of the entries, one after another, a slot is free, and none makes the table grow. -/
def Quiet (m : IntMode) (key : α → Bytes) (compare : Bool) : Table α → List α → Prop
  | _, [] => True
  | t, a :: as =>
    (∃ (ix : ℕ) (b : Slot α), t.slots[ix]? = some b ∧ b.vacant = true) ∧
    (∀ ix b, addWalk m key compare t a = .hit (ix, b) → b.vacant = true → load m (t.place ix a) ≤ 70) ∧
    ∀ depth t' stored, add m key compare depth t a = .ok (t', stored) → Quiet m key compare t' as

/-! ### Insertions that do not make the table grow -/

/-- The depth of an insertion matters only to the resize after it. -/
theorem add_congr {d d' : ℕ} (h : ∀ ix b, addWalk m key compare t a = .hit (ix, b) → b.vacant = true →
      resizeUp m (add m key compare d) (t.place ix a) = resizeUp m (add m key compare d') (t.place ix a)) :
    add m key compare (d + 1) t a = add m key compare (d' + 1) t a := by
  rw [add, add]
  cases hwalk : addWalk m key compare t a with
  | outside => rfl
  | miss => rfl
  | hit p =>
    obtain ⟨ix, b⟩ := p
    cases b with
    | live b => rfl
    | null => simp only [h ix .null hwalk rfl]
    | deleted => simp only [h ix .deleted hwalk rfl]

theorem WF.add_depth (hw : t.WF m key) (hload : (t.used + 1) * 100 < 71 * t.size) (depth : ℕ) :
    add m key compare (depth + 1) t a = add m key compare 1 t a := by
  refine add_congr fun ix b hwalk hb => ?_
  have hle := hw.place_load hload hwalk hb
  rw [resizeUp, resizeUp, if_neg (by omega), if_neg (by omega)]

/-- A table that does not count all of its slots has a free one. -/
theorem WF.vacant (hw : t.WF m key) (hused : t.used < t.size) :
    ∃ (ix : ℕ) (b : Slot α), t.slots[ix]? = some b ∧ b.vacant = true := by
  have hcount := hw.counted
  refine exists_vacant ?_
  rw [hw.length]
  change t.entries.length < t.size
  omega

theorem WF.quiet (hw : t.WF m key) (hroom : Room t l) : Quiet m key compare t l := by
  induction l generalizing t with
  | nil => trivial
  | cons a l ih =>
    have hload := hroom.head
    have hpos := hw.two_le
    refine ⟨hw.vacant (by omega), fun ix b => hw.place_load hload, fun depth t' stored h => ?_⟩
    cases depth with
    | zero => cases h
    | succ depth =>
      obtain ⟨hw', hroom', -⟩ := hw.room_tail hroom h
      exact ih hw' hroom'

/-- The entries are inserted without a resize, in the first level of the recursion. -/
theorem WF.refill_depth (hw : t.WF m key) (hroom : Room t l) (depth : ℕ) :
    refill (add m key compare (depth + 1)) t l = refill (add m key compare 1) t l := by
  induction l generalizing t with
  | nil => rfl
  | cons a l ih =>
    rw [refill, refill, hw.add_depth hroom.head depth]
    cases h : add m key compare 1 t a with
    | error e => rfl
    | ok r =>
      obtain ⟨t', b⟩ := r
      obtain ⟨hw', hroom', -⟩ := hw.room_tail hroom h
      exact ih hw' hroom'

theorem WF.refill_size (hw : t.WF m key) (hroom : Room t l) (h : refill (add m key compare (depth + 1)) t l = .ok t') :
    t'.size = t.size := by
  induction l generalizing t with
  | nil =>
    cases h
    rfl
  | cons a l ih =>
    obtain ⟨⟨t₁, b⟩, hadd, h⟩ := bind_eq_ok.mp h
    obtain ⟨hw', hroom', hsize⟩ := hw.room_tail hroom hadd
    exact (ih hw' hroom' h).trans hsize

/-! ### Resizes -/

theorem resize_depth (hnew : m = .wrap → new < 2 ^ 31) (hroom : 2 ≤ new → Room (init new) t.entries) (depth : ℕ) :
    resize (add m key compare (depth + 1)) t new = resize (add m key compare 1) t new := by
  unfold resize
  by_cases hlt : new < 2
  · rw [if_pos hlt, if_pos hlt]
  · rw [if_neg hlt, if_neg hlt, (init_wf hnew).refill_depth (hroom (by omega)) depth]

theorem resize_size (hnew : m = .wrap → new < 2 ^ 31) (hroom : 2 ≤ new → Room (init new) t.entries)
    (h : resize (add m key compare (depth + 1)) t new = .ok t') :
    new < 2 ∧ t' = t ∨ t'.size = (init new : Table α).size := by
  unfold resize at h
  by_cases hlt : new < 2
  · rw [if_pos hlt] at h
    cases h
    exact .inl ⟨hlt, rfl⟩
  · rw [if_neg hlt] at h
    obtain ⟨t₁, hrefill, heq⟩ := bind_eq_ok.mp h
    cases heq
    have hsize := (init_wf hnew).refill_size (hroom (by omega)) hrefill
    exact .inr hsize

/-- The size is a prime, and the counter is at most 70 of 100 slots. -/
structure Loaded (key : α → Bytes) (t : Table α) : Prop where
  wf : t.WF .exact key
  prime : t.size.Prime
  used : t.used * 100 < 71 * t.size

theorem prime_init (size : Int) : (init size : Table α).size.Prime := (nextPrime_isLeast size).1.1

theorem init_loaded (size : Int) : Loaded key (init size : Table α) where
  wf := init_wf fun hm => nomatch hm
  prime := prime_init size
  used := by
    have := (prime_init (α := α) size).two_le
    rw [used_init]
    omega

theorem Loaded.resized (hw : t'.WF .exact key) (hsize : t'.size = (init new : Table α).size)
    (hused : t'.used * 100 < 71 * new) : Loaded key t' where
  wf := hw
  prime := hsize ▸ prime_init new
  used := by
    have := le_size_init (α := α) new
    omega

/-- A new entry may exceed the 70 of 100 slots, but not those of a table of twice the size. -/
theorem WF.resizeUp_loaded (hw : t.WF .exact key) (hprime : t.size.Prime) (hused : t.used * 100 < 71 * (t.size * 2))
    (h : resizeUp .exact (add .exact key compare (depth + 1)) t = .ok t') : Loaded key t' := by
  have hup := (hw.resizeUp_spec compare depth).of_ok h
  unfold resizeUp at h
  by_cases hload : load .exact t > 70
  · rw [if_pos hload] at h
    have hsize := hw.two_le
    rcases resize_size (by simp) (fun hnew => room_init (hw.grow_room hnew)) h with ⟨hnew, -⟩ | hsize
    · exact absurd (show (t.size * 2 : Int) < 2 from hnew) (by omega)
    · exact .resized hup.wf hsize (by rw [hup.used]; exact hused)
  · rw [if_neg hload] at h
    cases h
    exact ⟨hw, hprime, hw.load_lt rfl (by omega)⟩

theorem Loaded.resizeDown (hl : Loaded key t)
    (h : resizeDown .exact (Table.add .exact key compare (depth + 2)) t = .ok t') : Loaded key t' := by
  have hw := hl.wf
  have hdown := (hw.resizeDown_spec depth).of_ok h
  unfold Table.resizeDown at h
  by_cases hload : load .exact t < 10
  · rw [if_pos hload] at h
    rcases resize_size hw.half_lt (fun _ => room_init (hw.half_room rfl hload)) h with ⟨-, rfl⟩ | hsize
    · exact hl
    · exact .resized hdown.wf hsize (by rw [hdown.used]; exact hw.half_used rfl hload)
  · rw [if_neg hload] at h
    cases h
    exact hl

/-! ### The operations -/

theorem Loaded.bury (hl : Loaded key t) {ix : ℕ} (h : t.slots[ix]? = some (.live a)) : Loaded key (t.bury ix) where
  wf := hl.wf.bury h
  prime := hl.prime
  used := by
    have := hl.used
    change (t.used - 1) * 100 < 71 * (t.size : Int)
    omega

theorem Loaded.put (hl : Loaded key t) {ix : ℕ} (h : t.slots[ix]? = some (.live a)) {a' : α} (hk : key a' = key a) :
    Loaded key (t.put ix a') :=
  ⟨hl.wf.put h hk, hl.prime, hl.used⟩

theorem Loaded.place_used (hl : Loaded key t) (ix : ℕ) (a : α) :
    (t.place ix a).used * 100 < 71 * ((t.place ix a).size * 2) := by
  have hused := hl.used
  have hsize := hl.wf.two_le
  change (t.used + 1) * 100 < 71 * ((t.size : Int) * 2)
  omega

theorem Loaded.add (hl : Loaded key t) (h : Table.add .exact key compare (depth + 2) t a = .ok (t', b)) :
    Loaded key t' := by
  rcases hl.wf.add_cases compare (depth + 1) a with ⟨hm, -⟩ | hadd | ⟨ix, c, hwalk, hc⟩
  · cases hm
  · cases hadd.symm.trans h
    exact hl
  · obtain ⟨hplace, -, hadd⟩ := hl.wf.add_hit hwalk hc (depth + 1)
    obtain ⟨t₁, hup, heq⟩ := bind_eq_ok.mp (hadd.symm.trans h)
    cases heq
    exact hplace.resizeUp_loaded hl.prime (hl.place_used ix a) hup

theorem Loaded.remove (hl : Loaded key t) (h : Table.remove .exact key compare t k = .ok (t', b)) : Loaded key t' := by
  obtain ⟨r, hfind, hrem⟩ := bind_eq_ok.mp h
  cases r with
  | none =>
    cases hrem
    exact hl
  | some p =>
    obtain ⟨ix, a⟩ := p
    obtain ⟨t₁, hdown, heq⟩ := bind_eq_ok.mp hrem
    cases heq
    exact (hl.bury (find_some hfind).1).resizeDown hdown

/-! ### One level of recursion -/

theorem WF.resizeUp_depth (hw : t.WF m key) (depth : ℕ) :
    resizeUp m (add m key compare (depth + 1)) t = resizeUp m (add m key compare 1) t := by
  unfold resizeUp
  by_cases hload : load m t > 70
  · rw [if_pos hload, if_pos hload]
    exact resize_depth (IntMode.int_lt _) (fun hnew => room_init (hw.grow_room hnew)) depth
  · rw [if_neg hload, if_neg hload]

theorem WF.resizeDown_depth (hw : t.WF .exact key) (depth : ℕ) :
    resizeDown .exact (add .exact key compare (depth + 1)) t = resizeDown .exact (add .exact key compare 1) t := by
  unfold resizeDown
  by_cases hload : load .exact t < 10
  · rw [if_pos hload, if_pos hload]
    exact resize_depth hw.half_lt (fun _ => room_init (hw.half_room rfl hload)) depth
  · rw [if_neg hload, if_neg hload]

/-- What holds of a table between two operations. -/
structure Sized (t : Table α) : Prop where
  prime : t.size.Prime
  two_le : 2 ≤ t.size
  counted : (t.entries.length : Int) ≤ t.used
  load : t.used * 100 / t.size ≤ 70
  vacant : ∃ (ix : ℕ) (b : Slot α), t.slots[ix]? = some b ∧ b.vacant = true

theorem Loaded.sized (hl : Loaded key t) : t.Sized where
  prime := hl.prime
  two_le := hl.wf.two_le
  counted := hl.wf.counted
  load := by
    have hpos : (0 : Int) < t.size := by have := hl.wf.two_le; omega
    have hlt : t.used * 100 / t.size < 71 := Int.ediv_lt_of_lt_mul hpos hl.used
    omega
  vacant := hl.wf.vacant (by have := hl.used; omega)

/-- The recursion from an insertion over a resize to insertions ends there: when the table grows or shrinks, the
    re-insertions resize nothing, and one more level for them gives the result at any depth. -/
structure Shallow (key : α → Bytes) (compare : Bool) (t : Table α) : Prop where
  grow : ∀ a ix b, addWalk .exact key compare t a = .hit (ix, b) → b.vacant = true →
    load .exact (t.place ix a) > 70 → Quiet .exact key compare (init (t.size * 2)) (t.place ix a).entries
  shrink : ∀ ix a, t.slots[ix]? = some (.live a) → load .exact (t.bury ix) < 10 →
    Quiet .exact key compare (init (t.size / 2 : ℕ)) (t.bury ix).entries
  add : ∀ a, ∃ r, ∀ depth, add .exact key compare (depth + 2) t a = .ok r
  remove : ∀ ix a, t.slots[ix]? = some (.live a) →
    ∃ t', ∀ depth, resizeDown .exact (Table.add .exact key compare (depth + 1)) (t.bury ix) = .ok t'

theorem WF.shallow (hw : t.WF .exact key) : Shallow key compare t where
  grow a ix b hwalk hb _ := by
    obtain ⟨hplace, -, -⟩ := hw.add_hit hwalk hb 0
    have hnew : 2 ≤ IntMode.exact.int ((t.place ix a).size * 2) := by
      have := hplace.two_le
      change 2 ≤ ((t.place ix a).size * 2 : Int)
      omega
    exact (init_wf (IntMode.int_lt _)).quiet (room_init (hplace.grow_room hnew))
  shrink ix a hix hload := by
    have hbury := hw.bury hix
    exact (init_wf hbury.half_lt).quiet (room_init (hbury.half_room rfl hload))
  add a := by
    have hspec : Ensures (Table.add .exact key compare 2 t a) _ _ := hw.add_spec 0 a
    cases h : Table.add .exact key compare 2 t a with
    | error e => exact (hspec.of_error h).exact.elim
    | ok r =>
      refine ⟨r, fun depth => ?_⟩
      rw [← h]
      refine add_congr fun ix b hwalk hb => ?_
      obtain ⟨hplace, -, -⟩ := hw.add_hit hwalk hb 0
      rw [hplace.resizeUp_depth depth]
  remove ix a hix := by
    have hbury := hw.bury hix
    have hspec : Ensures (resizeDown .exact (Table.add .exact key compare 2) (t.bury ix)) _ _ := hbury.resizeDown_spec 0
    cases h : resizeDown .exact (Table.add .exact key compare 2) (t.bury ix) with
    | error e => exact (hspec.of_error h).exact.elim
    | ok t' =>
      refine ⟨t', fun depth => ?_⟩
      rw [← h, hbury.resizeDown_depth depth, hbury.resizeDown_depth 1]

end Table

/-! ### Runs -/

theorem Effect.loaded {op : HtableOp} {ht ht' : HashTable Value} (h : Effect .exact op ht ht')
    (hl : ht.Loaded HashTableItem.key) : ht'.Loaded HashTableItem.key := by
  have put {ix : ℕ} {a a' : HashTableItem Value} (hfind : htableFind .exact ht op.key = .ok (some (ix, a)))
      (hk : a'.key = op.key) : (ht.put ix a').Loaded HashTableItem.key :=
    hl.put (Table.find_some hfind).1 (hk.trans (htableFind_key hfind).symm)
  cases h with
  | stay h => exact h ▸ hl
  | insert _ _ _ hadd => exact hl.add hadd
  | put hfind hk h => exact h ▸ put hfind hk
  | del _ hdel => exact hl.remove hdel
  | drop _ hfind hk hdel => exact (put hfind hk).remove hdel

theorem HtableReached.loaded {P : HashTable Value → HtableOp → Prop} {ht : HashTable Value}
    (h : HtableReached .exact P ht) : ht.Loaded HashTableItem.key :=
  h.invariant (·.Loaded HashTableItem.key) (Table.init_loaded htBaseSize) fun _ _ _ hl _ hs =>
    (HtableOp.effect hs).loaded hl

theorem SetReached.loaded {Q : CSet → SetOp → Prop} {st : CSet} (h : SetReached .exact Q st) : st.Loaded id := by
  refine h.invariant (·.Loaded id) (Table.init_loaded htBaseSize) fun st op st' hl _ hs => ?_
  obtain ⟨⟨st', ok⟩, hr, heq⟩ := bind_eq_ok.mp hs
  cases heq
  cases op with
  | add key => exact hl.add hr
  | rem key => exact hl.remove hr

/-- Without overflow, every table and every set that a run reaches has a prime number of slots, counts at least its
    entries and at most 70 of 100 slots, so that a slot is free, and a resize of it leads to no other. -/
theorem size_and_load {P : HashTable Value → HtableOp → Prop} {Q : CSet → SetOp → Prop} {ht : HashTable Value}
    {st : CSet} (hht : HtableReached .exact P ht) (hst : SetReached .exact Q st) :
    (ht.Sized ∧ ht.Shallow HashTableItem.key false) ∧ st.Sized ∧ st.Shallow id true :=
  ⟨⟨hht.loaded.sized, hht.loaded.wf.shallow⟩, hst.loaded.sized, hst.loaded.wf.shallow⟩

/-- `SADD a f` makes a set of two slots grow to five. -/
theorem size_and_load_pair :
    (⟨5, 2, [.live (str "a"), .null, .live (str "f"), .null, .null]⟩ : CSet).Sized := by
  have hht : HtableReached .exact (fun _ _ => True) (oneString 0 (str "a") (str "1")) :=
    .step .init trivial (show HtableOp.step .exact _ (.set (str "a") (str "1")) = _ from rfl)
  have hrun : Runs.run (SetOp.step .exact) (setInit htBaseSize) [.add (str "a"), .add (str "f")] =
      .ok ⟨5, 2, [.live (str "a"), .null, .live (str "f"), .null, .null]⟩ := by decide +kernel
  have hst := Runs.Reached.init.run (P := fun _ _ => True) (fun _ _ => trivial) hrun
  exact (size_and_load hht hst).2.1

end MemKey
