import MemKey.Theorems.Coverage

/-! Runs without overflow. The greatest prime whose square fits an `int` is 46337: in tables of up to that size no probe,
    load or size overflows, and the built program does what exact arithmetic says. A table does not grow beyond that size
    before 16449 entries are counted in it, so that no run with fewer insertions overflows. -/

namespace MemKey
open Probing Outcome

theorem nextPrime_le {x : Int} {p : ℕ} (hp : p.Prime) (h : x ≤ p) : nextPrime x ≤ p := by
  refine (nextPrime_isLeast x).2 ⟨?_, h, ?_⟩
  · rwa [Int.toNat_natCast]
  · exact_mod_cast hp.two_le

theorem probePath_small {size i : ℕ} (hsize : size ≤ 46341) (hi : i < size) (k : Bytes) :
    probePath .wrap size k i = probePath .exact size k i := by
  rw [probePath_exact, probePath_eq_some]
  by_cases hzero : i = 0
  · subst hzero
    exact hashFunc_zero .wrap
  · have hlt : probeSum k size i < 2 ^ 31 := probeSum_small hsize hi
    rw [hashFunc_wrap hzero, wrap32_eq (by omega) (by exact_mod_cast hlt), Int.tmod_eq_emod_of_nonneg (by omega)]
    rfl

namespace Table

variable {α : Type} {key : α → Bytes} {compare : Bool} {t t' : Table α} {a : α} {k : Bytes} {l : List α} {b : Bool} {n d : ℕ}
  {new : Int}

/-! ### One table -/

/-- What an insertion or a removal computes from the table does not overflow. -/
structure Calm (key : α → Bytes) (t : Table α) : Prop where
  wf : t.WF .exact key
  free : t.used < t.size
  size : t.size ≤ 46337
  grows : 71 * (t.size : Int) ≤ (t.used + 1) * 100 → t.size * 2 ≤ 46337

theorem maxSize_isGreatest : IsGreatest {p : ℕ | p.Prime ∧ p * p < 2 ^ 31} 46337 := by
  refine ⟨⟨by norm_num, by norm_num⟩, ?_⟩
  rintro p ⟨hp, hsquare⟩
  by_contra hlt
  have hle : p < 46341 := by nlinarith
  -- None of the three numbers that are left is a prime.
  obtain rfl | rfl | rfl : p = 46338 ∨ p = 46339 ∨ p = 46340 := by omega
  all_goals norm_num at hp

theorem prime_maxSize : Nat.Prime 46337 := maxSize_isGreatest.1.1

theorem look_agree (hsize : t.size ≤ 46337) (k : Bytes) : ∀ i < 0 + t.size,
    look (probePath .wrap t.size k) t.slots i = look (probePath .exact t.size k) t.slots i := by
  intro i hi
  rw [look, look, probePath_small (by omega) (by omega)]

theorem find_agree (hsize : t.size ≤ 46337) (k : Bytes) : find .wrap key t k = find .exact key t k := by
  rw [find, find, seek, seek, walk_congr (look_agree hsize k)]

theorem addWalk_agree (hsize : t.size ≤ 46337) (a : α) :
    addWalk .wrap key compare t a = addWalk .exact key compare t a := walk_congr (look_agree hsize (key a))

theorem WF.load_agree (hw : t.WF .exact key) (hused : t.used ≤ t.size) (hsize : t.size ≤ 46337) :
    load .wrap t = load .exact t := by
  have := hw.counted
  have hint : IntMode.wrap.int (t.used * 100) = t.used * 100 := wrap32_eq (by omega) (by omega)
  rw [load, hint]
  rfl

theorem size_init_le {p : ℕ} (hp : p.Prime) (h : new ≤ p) : (init new : Table α).size ≤ p :=
  Int.toNat_le.mpr (nextPrime_le hp h)

/-- While the insertions at one level agree, so do the re-insertions of a resize. -/
theorem WF.refill_agree (hadd : ∀ (t : Table α) a, t.Calm key → add .wrap key compare d t a = add .exact key compare d t a)
    (hw : t.WF .exact key) (hsize : t.size ≤ 46337) (hroom : Room t l) :
    refill (add .wrap key compare d) t l = refill (add .exact key compare d) t l := by
  induction l generalizing t with
  | nil => rw [refill, refill]
  | cons a l ih =>
    have hhead := hroom.head
    have hcalm : t.Calm key := ⟨hw, by omega, hsize, fun hfull => by omega⟩
    rw [refill, refill, hadd t a hcalm]
    cases hrun : add .exact key compare d t a with
    | error e => rw [error_bind, error_bind]
    | ok r =>
      obtain ⟨t', stored⟩ := r
      cases d with
      | zero => cases hrun
      | succ d =>
        obtain ⟨hw', hroom', hsize'⟩ := hw.room_tail hroom hrun
        have hrest := ih hw' (hsize'.trans_le hsize) hroom'
        simp only [ok_bind, hrest]

theorem resize_agree (hadd : ∀ (t : Table α) a, t.Calm key → add .wrap key compare d t a = add .exact key compare d t a)
    (hnew : new ≤ 46337) (hroom : 2 ≤ new → Room (init new) t.entries) :
    resize (add .wrap key compare d) t new = resize (add .exact key compare d) t new := by
  unfold resize
  by_cases h2 : new < 2
  · rw [if_pos h2, if_pos h2]
  · rw [if_neg h2, if_neg h2,
      (init_loaded new).wf.refill_agree hadd (size_init_le prime_maxSize (by omega)) (hroom (by omega))]

theorem Calm.add_agree (h : t.Calm key) (d : ℕ) (a : α) : add .wrap key compare d t a = add .exact key compare d t a := by
  induction d generalizing t a with
  | zero => rfl
  | succ d ih =>
    rw [add, add, addWalk_agree h.size]
    cases hwalk : addWalk .exact key compare t a with
    | miss => rfl
    | outside => rfl
    | hit p =>
      obtain ⟨ix, c⟩ := p
      have hup (hc : c.vacant = true) : resizeUp .wrap (add .wrap key compare d) (t.place ix a) =
          resizeUp .exact (add .exact key compare d) (t.place ix a) := by
        obtain ⟨hplace, -, -⟩ := h.wf.add_hit hwalk hc 0
        unfold resizeUp
        rw [hplace.load_agree (Int.add_one_le_iff.mpr h.free) h.size]
        by_cases hload : load .exact (t.place ix a) > 70
        · have hfull : 71 * (t.size : Int) ≤ (t.used + 1) * 100 := by
            by_contra hlt
            have := h.wf.place_load (by omega) hwalk hc
            omega
          have hdouble := h.grows hfull
          have hint : IntMode.wrap.int ((t.place ix a).size * 2) = IntMode.exact.int ((t.place ix a).size * 2) :=
            wrap32_eq (by omega) (by change (t.size * 2 : Int) < _; omega)
          rw [if_pos hload, if_pos hload, hint]
          refine resize_agree (fun _ a ht => ih ht a) ?_ fun hnew => room_init (hplace.grow_room hnew)
          change (t.size * 2 : Int) ≤ 46337
          omega
        · rw [if_neg hload, if_neg hload]
      cases c with
      | live b => rfl
      | null | deleted => dsimp only; rw [hup rfl]

theorem Loaded.remove_agree (hl : t.Loaded key) (hsize : t.size ≤ 46337) (k : Bytes) :
    Table.remove .wrap key compare t k = Table.remove .exact key compare t k := by
  rw [Table.remove, Table.remove, find_agree hsize]
  cases hfind : find .exact key t k with
  | error e => rw [error_bind, error_bind]
  | ok r =>
    rw [ok_bind, ok_bind]
    cases r with
    | none => rfl
    | some p =>
      obtain ⟨ix, a⟩ := p
      have hbury := hl.wf.bury (find_some hfind).1
      have hdown : Table.resizeDown .wrap (Table.add .wrap key compare depth) (t.bury ix) =
          Table.resizeDown .exact (Table.add .exact key compare depth) (t.bury ix) := by
        have hfree := hl.free
        unfold Table.resizeDown
        rw [hbury.load_agree (by change t.used - 1 ≤ (t.size : Int); omega) hsize]
        by_cases hload : load .exact (t.bury ix) < 10
        · rw [if_pos hload, if_pos hload]
          refine resize_agree (fun _ a ht => ht.add_agree depth a) ?_ fun _ => room_init (hbury.half_room rfl hload)
          change ((t.size / 2 : ℕ) : Int) ≤ 46337
          omega
        · rw [if_neg hload, if_neg hload]
      dsimp only
      rw [hdown]

/-! ### Sizes over runs -/

/-- The table after at most `n` insertions. -/
structure Tame (key : α → Bytes) (n : ℕ) (t : Table α) : Prop where
  loaded : t.Loaded key
  used : t.used ≤ n
  size : t.size ≤ 46337

theorem Tame.init {size : Int} (h : size ≤ 46337) : Tame key n (Table.init size : Table α) :=
  ⟨init_loaded size, Int.natCast_nonneg n, size_init_le prime_maxSize (by omega)⟩

theorem Tame.mono {n' : ℕ} (h : t.Tame key n) (hn : n ≤ n') : t.Tame key n' :=
  ⟨h.loaded, h.used.trans (by exact_mod_cast hn), h.size⟩

/-- Before 16449 entries are counted, a table that grows has at most 23167 slots. -/
theorem Tame.calm (h : t.Tame key n) (hn : n < 16449) : t.Calm key :=
  ⟨h.loaded.wf, h.loaded.free, h.size, fun hfull => by have := h.used; omega⟩

theorem Tame.put (h : t.Tame key n) {ix : ℕ} (hix : t.slots[ix]? = some (.live a)) {a' : α} (hk : key a' = key a) :
    (t.put ix a').Tame key n := ⟨h.loaded.put hix hk, h.used, h.size⟩

theorem WF.resizeUp_size (hw : t.WF .exact key) (h : resizeUp .exact (add .exact key compare (d + 1)) t = .ok t') :
    t'.size = t.size ∨ load .exact t > 70 ∧ t'.size = (init (t.size * 2) : Table α).size := by
  unfold resizeUp at h
  by_cases hload : load .exact t > 70
  · rw [if_pos hload] at h
    rcases resize_size (by simp) (fun hnew => room_init (hw.grow_room hnew)) h with ⟨-, rfl⟩ | hsize
    · exact .inl rfl
    · exact .inr ⟨hload, hsize⟩
  · rw [if_neg hload] at h
    cases h
    exact .inl rfl

theorem WF.resizeDown_size (hw : t.WF .exact key) (h : resizeDown .exact (add .exact key compare (d + 1)) t = .ok t') :
    t'.size = t.size ∨ t'.size = (init (t.size / 2 : ℕ) : Table α).size := by
  unfold resizeDown at h
  by_cases hload : load .exact t < 10
  · rw [if_pos hload] at h
    rcases resize_size hw.half_lt (fun _ => room_init (hw.half_room rfl hload)) h with ⟨-, rfl⟩ | hsize
    · exact .inl rfl
    · exact .inr hsize
  · rw [if_neg hload] at h
    cases h
    exact .inl rfl

theorem Tame.add (h : t.Tame key n) (hn : n < 16449) (hadd : Table.add .exact key compare (d + 2) t a = .ok (t', b)) :
    t'.Tame key (n + 1) where
  loaded := h.loaded.add hadd
  used := by
    have hused : t'.used = t.used + if b then 1 else 0 := ((h.loaded.wf.add_spec d a).of_ok hadd).used
    have := h.used
    split at hused <;> omega
  size := by
    rcases h.loaded.wf.add_cases compare (d + 1) a with ⟨hm, -⟩ | hskip | ⟨ix, c, hwalk, hc⟩
    · cases hm
    · cases hskip.symm.trans hadd
      exact h.size
    · obtain ⟨hplace, -, heq⟩ := h.loaded.wf.add_hit hwalk hc (d + 1)
      obtain ⟨t₁, hup, heq⟩ := bind_eq_ok.mp (heq.symm.trans hadd)
      cases heq
      rcases hplace.resizeUp_size hup with hsize | ⟨hload, hsize⟩
      · exact hsize.trans_le h.size
      · have hfull : 71 * (t.size : Int) ≤ (t.used + 1) * 100 := by
          by_contra hlt
          have := h.loaded.wf.place_load (by omega) hwalk hc
          omega
        have hgrow := (h.calm hn).grows hfull
        exact hsize.trans_le (size_init_le prime_maxSize (by change (t.size * 2 : Int) ≤ _; omega))

theorem Tame.remove (h : t.Tame key n) (hrem : Table.remove .exact key compare t k = .ok (t', b)) : t'.Tame key n where
  loaded := h.loaded.remove hrem
  used := by
    have hspec := (h.loaded.wf.remove_spec k).of_ok hrem
    have := h.used
    cases b with
    | false =>
      obtain ⟨rfl, -⟩ := hspec.stays rfl
      exact h.used
    | true =>
      obtain ⟨-, -, -, hused⟩ := hspec.gone rfl
      dsimp only at hused
      omega
  size := by
    obtain ⟨r, hfind, hrem⟩ := bind_eq_ok.mp hrem
    cases r with
    | none =>
      cases hrem
      exact h.size
    | some p =>
      obtain ⟨ix, a⟩ := p
      obtain ⟨t₁, hdown, heq⟩ := bind_eq_ok.mp hrem
      cases heq
      rcases (h.loaded.wf.bury (find_some hfind).1).resizeDown_size hdown with hsize | hsize
      · exact hsize.trans_le h.size
      · have := h.size
        exact hsize.trans_le (size_init_le prime_maxSize (by change ((t.size / 2 : ℕ) : Int) ≤ _; omega))

end Table

/-! ### The keyspace -/

/-- The keyspace after at most `n` operations. -/
structure Bounded (n : ℕ) (ht : Keyspace) : Prop where
  table : ht.Tame HashTableItem.key n
  sound : Sound .exact (Nests (·.Tame HashTableItem.key n) (·.Tame id n)) ht

section Bounded
variable {n : ℕ} {ht ht' : HashTable Value} {st st' : CSet} {op : HtableOp} {a : HashTableItem Value} {key : Bytes} {ix : ℕ}

theorem Bounded.init : Bounded 0 (htableInit htBaseSize) := ⟨.init (by decide), .init⟩

theorem HtableOp.step_tame (hs : op.step .exact ht = .ok ht') (h : ht.Tame HashTableItem.key n) (hn : n < 16449) :
    ht'.Tame HashTableItem.key (n + 1) := by
  have put {ix : ℕ} {a a' : HashTableItem Value} (hfind : htableFind .exact ht op.key = .ok (some (ix, a)))
      (hk : a'.key = op.key) : (ht.put ix a').Tame HashTableItem.key n :=
    h.put (Table.find_some hfind).1 (hk.trans (htableFind_key hfind).symm)
  cases HtableOp.effect hs with
  | stay heq => exact heq ▸ h.mono n.le_succ
  | insert _ _ _ hadd => exact h.add hn hadd
  | put hfind hk heq => exact heq ▸ (put hfind hk).mono n.le_succ
  | del _ hdel => exact (h.remove hdel).mono n.le_succ
  | drop _ hfind hk hdel => exact ((put hfind hk).remove hdel).mono n.le_succ

theorem SetOp.step_tame {op : SetOp} (hs : op.step .exact st = .ok st') (h : st.Tame id n) (hn : n < 16449) :
    st'.Tame id (n + 1) := by
  obtain ⟨⟨st', ok⟩, hr, heq⟩ := bind_eq_ok.mp hs
  cases heq
  cases op with
  | add key => exact h.add hn hr
  | rem key => exact (h.remove hr).mono n.le_succ

theorem Bounded.step (h : Bounded n ht) (hn : n < 16449) (hs : op.step .exact ht = .ok ht') : Bounded (n + 1) ht' where
  table := HtableOp.step_tame hs h.table hn
  sound := by
    have hle : n ≤ n + 1 := n.le_succ
    refine h.sound.step_to hs (fun a ha => ha.mono (fun _ htmp => htmp.mono hle) fun _ hst => hst.mono hle)
      (fun a hcreate => ?_) fun ix a a' hfind ha hact => ?_
    · exact create_nests (fun o tmp _ ho => HtableOp.step_tame ho (.init (by decide)) hn)
        (fun o st _ ho => SetOp.step_tame ho (.init (by decide)) hn) hcreate
    · exact act_nests (fun o tmp tmp' _ hv ho => HtableOp.step_tame ho (ha.hash tmp hv) hn)
        (fun o st st' _ hv ho => SetOp.step_tame ho (ha.set st hv) hn) hact

theorem Bounded.item (h : Bounded n ht) (hfind : htableFind .exact ht key = .ok (some (ix, a))) :
    Nests (·.Tame HashTableItem.key n) (·.Tame id n) a :=
  h.sound.items a (mem_entries.mpr ⟨ix, (Table.find_some hfind).1⟩)

end Bounded

/-! ### What the built program computes -/

section Agree
variable {V ρ : Type} {n : ℕ} {tmp : HashTable V} {ht : HashTable Value} {st : CSet} {key field value : Bytes}

theorem find_agree (h : tmp.Tame HashTableItem.key n) (key : Bytes) : htableFind .wrap tmp key = htableFind .exact tmp key :=
  Table.find_agree h.size key

theorem insert_agree (h : tmp.Tame HashTableItem.key n) (hn : n < 16449) (type : ItemType) (key : Bytes) (value : V) :
    htableInsert .wrap tmp type key value = htableInsert .exact tmp type key value := by
  rw [htableInsert, htableInsert, (h.calm hn).add_agree]

theorem del_agree (h : tmp.Tame HashTableItem.key n) (key : Bytes) : htableDel .wrap tmp key = htableDel .exact tmp key :=
  h.loaded.remove_agree h.size key

theorem search_agree (h : tmp.Tame HashTableItem.key n) (key : Bytes) :
    htableSearch .wrap tmp key = htableSearch .exact tmp key := by
  rw [htableSearch, htableSearch, find_agree h]

theorem exists_agree (h : tmp.Tame HashTableItem.key n) (key : Bytes) :
    htableExists .wrap tmp key = htableExists .exact tmp key := by
  rw [htableExists, htableExists, search_agree h]

theorem type_agree (h : tmp.Tame HashTableItem.key n) (key : Bytes) :
    htableType .wrap tmp key = htableType .exact tmp key := by
  rw [htableType, htableType, search_agree h]

theorem set_agree (h : ht.Tame HashTableItem.key n) (hn : n < 16449) (key value : Bytes) :
    htableSet .wrap ht key value = htableSet .exact ht key value := by
  rw [htableSet, htableSet, exists_agree h, htableUpdateStr, htableUpdateStr, find_agree h, insert_agree h hn]

theorem setAdd_agree (h : st.Tame id n) (hn : n < 16449) (value : Bytes) : setAdd .wrap st value = setAdd .exact st value :=
  (h.calm hn).add_agree Table.depth value

theorem setRem_agree (h : st.Tame id n) (value : Bytes) : setRem .wrap st value = setRem .exact st value :=
  h.loaded.remove_agree h.size value

theorem setIsmember_agree (h : st.Tame id n) (value : Bytes) : setIsmember .wrap st value = setIsmember .exact st value := by
  rw [setIsmember, setIsmember, Table.find_agree h.size]

theorem update_agree {act act' : Value → Except Fault (Value × ρ)} (h : ht.Tame HashTableItem.key n)
    (hact : ∀ ix a, htableFind .exact ht key = .ok (some (ix, a)) → act a.value = act' a.value) (missing : ρ) :
    htableUpdate .wrap ht key act missing = htableUpdate .exact ht key act' missing := by
  rw [htableUpdate, htableUpdate, find_agree h]
  cases hfind : htableFind .exact ht key with
  | error e => rw [error_bind, error_bind]
  | ok r =>
    rcases r with _ | ⟨ix, a⟩
    · rw [ok_bind, ok_bind]
    · simp only [ok_bind, hact ix a hfind]

theorem shrink_agree {act act' : Value → Except Fault (Value × Bool × ρ)} (h : ht.Tame HashTableItem.key n)
    (hact : ∀ ix a, htableFind .exact ht key = .ok (some (ix, a)) → act a.value = act' a.value) (missing : ρ) :
    htableShrink .wrap ht key act missing = htableShrink .exact ht key act' missing := by
  rw [htableShrink, htableShrink, find_agree h]
  cases hfind : htableFind .exact ht key with
  | error e => rw [error_bind, error_bind]
  | ok r =>
    rcases r with _ | ⟨ix, a⟩
    · rw [ok_bind, ok_bind]
    · have hdel (v : Value) : htableDel .wrap (ht.put ix { a with value := v }) key =
          htableDel .exact (ht.put ix { a with value := v }) key := by
        have hput : (ht.put ix { a with value := v }).Tame HashTableItem.key n := h.put (Table.find_some hfind).1 rfl
        exact del_agree hput key
      simp only [ok_bind, hact ix a hfind, hdel]

theorem read_agree {act act' : Value → Except Fault ρ} (h : ht.Tame HashTableItem.key n)
    (hact : ∀ ix a, htableFind .exact ht key = .ok (some (ix, a)) → act a.value = act' a.value) (missing : ρ) :
    htableRead .wrap ht key act missing = htableRead .exact ht key act' missing := by
  rw [htableRead, htableRead, search_agree h, htableSearch]
  cases hfind : htableFind .exact ht key with
  | error e => rw [error_bind, error_bind, error_bind]
  | ok r =>
    rcases r with _ | ⟨ix, a⟩
    · rw [ok_bind, ok_bind]
      rfl
    · exact hact ix a hfind

theorem asHash_congr {v : Value} {f g : HashTable Value → Except Fault ρ} (h : ∀ tmp, v = .hash tmp → f tmp = g tmp) :
    (v.asHash >>= f) = v.asHash >>= g := by
  cases v with
  | hash tmp => exact h tmp rfl
  | str | list | set => rfl

theorem asSet_congr {v : Value} {f g : CSet → Except Fault ρ} (h : ∀ st, v = .set st → f st = g st) :
    (v.asSet >>= f) = v.asSet >>= g := by
  cases v with
  | set st => exact h st rfl
  | str | list | hash => rfl

end Agree

/-- Every operation of the built program on the keyspace does what it does without overflow. -/
structure Alike (ht : Keyspace) : Prop where
  exists_ : htableExists .wrap ht = htableExists .exact ht
  type : htableType .wrap ht = htableType .exact ht
  read (ρ : Type) : @htableRead ρ .wrap ht = @htableRead ρ .exact ht
  hget : htableHget .wrap ht = htableHget .exact ht
  sismember : htableSismember .wrap ht = htableSismember .exact ht
  lrange : htableLrange .wrap ht = htableLrange .exact ht
  set : htableSet .wrap ht = htableSet .exact ht
  hset : htableHset .wrap ht = htableHset .exact ht
  push : htablePush .wrap ht = htablePush .exact ht
  sadd : htableSadd .wrap ht = htableSadd .exact ht
  del : htableDel .wrap ht = htableDel .exact ht
  pop : htablePop .wrap ht = htablePop .exact ht
  hdel : htableHdel .wrap ht = htableHdel .exact ht
  lrem : htableLrem .wrap ht = htableLrem .exact ht
  srem : htableSrem .wrap ht = htableSrem .exact ht
  lset : htableLset .wrap ht = htableLset .exact ht

section Alike
variable {n : ℕ} {ht : Keyspace}

theorem Bounded.alike (h : Bounded n ht) (hn : n < 16449) : Alike ht where
  exists_ := funext (exists_agree h.table)
  type := funext (type_agree h.table)
  read _ := funext fun _ => funext fun _ => funext fun missing => read_agree h.table (fun _ _ _ => rfl) missing
  hget := funext fun key => funext fun field => read_agree h.table (fun ix a hfind => asHash_congr fun tmp hv =>
    read_agree ((h.item hfind).hash tmp hv) (fun _ _ _ => rfl) none) none
  sismember := funext fun key => funext fun value => read_agree h.table (fun ix a hfind => asSet_congr fun st hv =>
    setIsmember_agree ((h.item hfind).set st hv) value) false
  lrange := funext fun key => funext fun b => funext fun e => by
    rw [htableLrange, htableLrange, type_agree h.table, search_agree h.table]
  set := funext fun key => funext fun value => set_agree h.table hn key value
  hset := funext fun key => funext fun field => funext fun value => by
    have hupdate : htableUpdateHash .wrap ht key field value = htableUpdateHash .exact ht key field value :=
      update_agree h.table (fun ix a hfind => asHash_congr fun tmp hv => by
        rw [set_agree ((h.item hfind).hash tmp hv) hn]) false
    have hfirst : htableSet .wrap (htableInit htBaseSize) field value =
        htableSet .exact (htableInit htBaseSize) field value :=
      set_agree (.init (by decide)) hn field value
    rw [htableHset, htableHset, exists_agree h.table, hupdate, hfirst]
    simp only [insert_agree h.table hn]
  push := funext fun key => funext fun value => funext fun dir => by
    have hupdate : htableUpdateList .wrap ht key value dir = htableUpdateList .exact ht key value dir :=
      update_agree h.table (fun _ _ _ => rfl) 0
    rw [htablePush, htablePush, exists_agree h.table, hupdate]
    simp only [insert_agree h.table hn]
  sadd := funext fun key => funext fun value => by
    have hupdate : htableUpdateSet .wrap ht key value = htableUpdateSet .exact ht key value :=
      update_agree h.table (fun ix a hfind => asSet_congr fun st hv => by
        rw [setAdd_agree ((h.item hfind).set st hv) hn]) false
    have hfirst : setAdd .wrap (setInit htBaseSize) value = setAdd .exact (setInit htBaseSize) value :=
      setAdd_agree (.init (by decide)) hn value
    rw [htableSadd, htableSadd, exists_agree h.table, hupdate, hfirst]
    simp only [insert_agree h.table hn]
  del := funext (del_agree h.table)
  pop := funext fun key => funext fun dir => shrink_agree h.table (fun _ _ _ => rfl) none
  hdel := funext fun key => funext fun field => shrink_agree h.table (fun ix a hfind => asHash_congr fun tmp hv => by
    rw [del_agree ((h.item hfind).hash tmp hv)]) false
  lrem := funext fun key => funext fun count => funext fun value => shrink_agree h.table (fun _ _ _ => rfl) 0
  srem := funext fun key => funext fun value => shrink_agree h.table (fun ix a hfind => asSet_congr fun st hv => by
    rw [setRem_agree ((h.item hfind).set st hv)]) false
  lset := funext fun key => funext fun id => funext fun value => update_agree h.table (fun _ _ _ => rfl) false

/-! ### Commands -/

theorem Alike.get (h : Alike ht) : htableGet .wrap ht = htableGet .exact ht := by
  funext key
  rw [htableGet, htableGet, h.read]

/-- A loop whose calls agree from every keyspace that it reaches. -/
theorem oksLoop_congr {α : Type} {f g : Keyspace → α → Except Fault (Keyspace × Bool)} (Inv : ℕ → Keyspace → Prop) {N : ℕ}
    (hf : ∀ n ht a, Inv n ht → n < N → f ht a = g ht a)
    (hg : ∀ n ht a ht' ok, Inv n ht → n < N → g ht a = .ok (ht', ok) → Inv (n + 1) ht') (args : List α) (h : Inv n ht)
    (hn : n + args.length ≤ N) (oks : Int) : oksLoop f ht oks args = oksLoop g ht oks args := by
  induction args generalizing n ht oks with
  | nil => rw [oksLoop, oksLoop]
  | cons a args ih =>
    rw [List.length_cons] at hn
    rw [oksLoop, oksLoop, hf n ht a h (by omega)]
    cases hrun : g ht a with
    | error e => rw [error_bind, error_bind]
    | ok r =>
      obtain ⟨ht', ok⟩ := r
      have hrest := ih (hg n ht a ht' ok h (by omega) hrun) (by omega) (oks + if ok then 1 else 0)
      simp only [ok_bind, hrest]

theorem oksLoop_agree {α : Type} {f g : Keyspace → α → Except Fault (Keyspace × Bool)} (op : α → HtableOp)
    (hop : ∀ ht a, (op a).step .exact ht = do .ok (← g ht a).1) (hf : ∀ ht a, Alike ht → f ht a = g ht a)
    (args : List α) (h : Bounded n ht) (hn : n + args.length ≤ 16449) (oks : Int) :
    oksLoop f ht oks args = oksLoop g ht oks args := by
  refine oksLoop_congr Bounded (fun n ht a h hn => hf ht a (h.alike hn)) (fun n ht a ht' ok h hn hrun => ?_) args h hn oks
  have hstep : (op a).step .exact ht = .ok ht' := by
    rw [hop, hrun]
    rfl
  exact h.step hn hstep

theorem pushLoop_agree (dir : ListDirection) (key : Bytes) (args : List Bytes) (h : Bounded n ht)
    (hn : n + args.length ≤ 16449) (len : Int) :
    pushLoop .wrap dir key ht len args = pushLoop .exact dir key ht len args := by
  induction args generalizing n ht len with
  | nil => rw [pushLoop, pushLoop]
  | cons a args ih =>
    have hn' : n < 16449 := by
      rw [List.length_cons] at hn
      omega
    rw [pushLoop, pushLoop, (h.alike hn').push]
    cases hrun : htablePush .exact ht key a dir with
    | error e => rw [error_bind, error_bind]
    | ok r =>
      obtain ⟨ht', len'⟩ := r
      have hstep : (HtableOp.push key a dir).step .exact ht = .ok ht' := by
        rw [HtableOp.step, hrun]
        rfl
      have hrest := ih (h.step hn' hstep) (by rw [List.length_cons] at hn; omega) len'
      simp only [ok_bind, hrest]

theorem length_pairs_le (args : List Bytes) : (pairs args).length ≤ args.length := by
  fun_induction pairs args with
  | case1 a b rest ih =>
    simp only [List.length_cons]
    omega
  | case2 => exact Nat.zero_le _

theorem Bounded.execOks_agree (h : Bounded n ht) {f g : Keyspace → Bytes → Bytes → Except Fault (Keyspace × Bool)}
    (op : Bytes → Bytes → HtableOp) (hop : ∀ ht key arg, (op key arg).step .exact ht = do .ok (← g ht key arg).1)
    (hf : ∀ ht, Alike ht → f ht = g ht) (cmd : Command) (hn : n + cmd.argv.length < 16449) (expected : String) :
    execOks .wrap ht cmd expected f = execOks .exact ht cmd expected g := by
  obtain ⟨type, argv⟩ := cmd
  rcases argv with _ | ⟨key, _ | ⟨arg, args⟩⟩
  · simp only [execOks]
  · simp only [execOks]
  · have hloop := oksLoop_agree (f := fun ht arg => f ht key arg) (op key) (fun ht arg => hop ht key arg)
      (fun ht arg ha => congrFun (congrFun (hf ht ha) key) arg) (arg :: args) h
      (by simp only [List.length_cons] at hn ⊢; omega) 0
    simp only [execOks, typed, (h.alike (by omega)).type, hloop]

theorem Bounded.execPush_agree (h : Bounded n ht) (cmd : Command) (hn : n + cmd.argv.length < 16449) (dir : ListDirection) :
    execPush .wrap ht cmd dir = execPush .exact ht cmd dir := by
  obtain ⟨type, argv⟩ := cmd
  rcases argv with _ | ⟨key, _ | ⟨arg, args⟩⟩
  · simp only [execPush]
  · simp only [execPush]
  · have hloop := pushLoop_agree dir key (arg :: args) h (by simp only [List.length_cons] at hn ⊢; omega) 0
    simp only [execPush, typed, (h.alike (by omega)).type, hloop]

theorem Bounded.execDel_agree (h : Bounded n ht) (cmd : Command) (hn : n + cmd.argv.length < 16449) :
    execDel .wrap ht cmd = execDel .exact ht cmd := by
  have hloop := oksLoop_agree (g := htableDel .exact) .del (fun _ _ => rfl) (fun ht key ha => congrFun ha.del key) cmd.argv h
    (by omega) 0
  rw [execDel, execDel, hloop]

theorem Bounded.execExists_agree (h : Bounded n ht) (cmd : Command) (hn : n + cmd.argv.length < 16449) :
    execExists .wrap ht cmd = execExists .exact ht cmd := by
  have hexists := (h.alike (by omega)).exists_
  have hloop := oksLoop_congr (f := fun ht key => do .ok (ht, ← htableExists .wrap ht key)) (fun _ ht' => ht' = ht)
    (g := fun ht key => do .ok (ht, ← htableExists .exact ht key)) (fun n ht' key heq _ => by rw [heq, hexists])
    (fun n ht' key ht'' ok heq _ hrun => by
      obtain ⟨_, -, hok⟩ := bind_eq_ok.mp hrun
      cases hok
      exact heq) cmd.argv (n := n) rfl hn.le 0
  rw [execExists, execExists, hloop]

theorem Bounded.execMset_agree (h : Bounded n ht) (cmd : Command) (hn : n + cmd.argv.length < 16449) :
    execMset .wrap ht cmd = execMset .exact ht cmd := by
  have hlen := length_pairs_le cmd.argv
  unfold execMset
  split
  · refine bind_congr_left ?_
    refine oksLoop_agree (fun p => .set p.1 p.2) ?_ ?_ (pairs cmd.argv) h (by omega) 0
    · rintro ht ⟨key, value⟩
      rfl
    · rintro ht ⟨key, value⟩ ha
      dsimp only
      rw [ha.set]
  · rfl

theorem Bounded.execHset_agree (h : Bounded n ht) (cmd : Command) (hn : n + cmd.argv.length < 16449) :
    execHset .wrap ht cmd = execHset .exact ht cmd := by
  obtain ⟨type, argv⟩ := cmd
  rcases argv with _ | ⟨key, args⟩
  · simp only [execHset]
  · have hlen := length_pairs_le args
    rw [List.length_cons] at hn
    unfold execHset typed
    dsimp only
    rw [(h.alike (by omega)).type]
    split
    · refine bind_congr fun type => ?_
      split
      · refine bind_congr_left ?_
        refine oksLoop_agree (fun p => .hset key p.1 p.2) ?_ ?_ (pairs args) h (by omega) 0
        · rintro ht ⟨field, value⟩
          rfl
        · rintro ht ⟨field, value⟩ ha
          dsimp only
          rw [ha.hset]
      · rfl
    · rfl

/-- The built program does what a command does without overflow. -/
theorem Bounded.interpret_agree (h : Bounded n ht) (cmd : Command) (hn : n + cmd.argv.length < 16449) :
    interpret .wrap ht cmd = interpret .exact ht cmd := by
  have ha := h.alike (by omega : n < 16449)
  obtain ⟨type, argv⟩ := cmd
  dsimp only at hn
  cases type with
  | TYPE => simp only [interpret, execType, ha.type]
  | SET => simp only [interpret, execSet, ha.set]
  | GET => simp only [interpret, execGet, typed, ha.type, ha.get]
  | MGET => simp only [interpret, execMget, typed, ha.type, ha.get]
  | INCR => simp only [interpret, execIncr, execStep, typed, ha.type, ha.get, ha.set]
  | DECR => simp only [interpret, execDecr, execStep, typed, ha.type, ha.get, ha.set]
  | INCRBY => simp only [interpret, execIncrby, execStepBy, typed, ha.type, ha.get, ha.set]
  | DECRBY => simp only [interpret, execDecrby, execStepBy, typed, ha.type, ha.get, ha.set]
  | STRLEN => simp only [interpret, execStrlen, typed, ha.type, ha.get]
  | HGET => simp only [interpret, execHget, typed, ha.type, ha.hget]
  | HGETALL => simp only [interpret, execHgetall, htableHgetall, typed, ha.type, ha.read]
  | HEXISTS => simp only [interpret, execHexists, typed, ha.type, ha.hget]
  | HKEYS => simp only [interpret, execHkeys, execHkeyvals, htableHkeyvals, typed, ha.type, ha.read]
  | HVALS => simp only [interpret, execHvals, execHkeyvals, htableHkeyvals, typed, ha.type, ha.read]
  | HMGET => simp only [interpret, execHmget, typed, ha.type, ha.exists_, ha.hget]
  | HLEN => simp only [interpret, execHlen, htableHlen, typed, ha.type, ha.read]
  | LPOP => simp only [interpret, execLpop, execPop, typed, ha.type, ha.pop]
  | RPOP => simp only [interpret, execRpop, execPop, typed, ha.type, ha.pop]
  | LLEN => simp only [interpret, execLlen, htableLlen, typed, ha.type, ha.read]
  | LINDEX => simp only [interpret, execLindex, htableCheckId, htableLindex, typed, ha.type, ha.read]
  | LRANGE => simp only [interpret, execLrange, htableCheckIds, typed, ha.type, ha.read, ha.lrange]
  | LSET => simp only [interpret, execLset, htableCheckId, typed, ha.type, ha.read, ha.lset]
  | LREM => simp only [interpret, execLrem, typed, ha.type, ha.lrem]
  | LPOS => simp only [interpret, execLpos, htableLpos, typed, ha.type, ha.read]
  | SISMEMBER => simp only [interpret, execSismember, typed, ha.type, ha.sismember]
  | SMEMBERS => simp only [interpret, execSmembers, htableSmembers, typed, ha.type, ha.read]
  | SMISMEMBER => simp only [interpret, execSmismember, typed, ha.type, ha.exists_, ha.sismember]
  | UNKNOWN | QUIT | SHUTDOWN | NOOP => simp only [interpret]
  | DEL => exact h.execDel_agree _ hn
  | EXISTS => exact h.execExists_agree _ hn
  | MSET => exact h.execMset_agree _ hn
  | HSET => exact h.execHset_agree _ hn
  | HDEL => exact h.execOks_agree .hdel (fun _ _ _ => rfl) (fun _ ha => ha.hdel) _ hn "hash"
  | SADD => exact h.execOks_agree .sadd (fun _ _ _ => rfl) (fun _ ha => ha.sadd) _ hn "set"
  | SREM => exact h.execOks_agree .srem (fun _ _ _ => rfl) (fun _ ha => ha.srem) _ hn "set"
  | LPUSH => exact h.execPush_agree _ hn .LEFT
  | RPUSH => exact h.execPush_agree _ hn .RIGHT

/-! ### Runs of commands -/

theorem length_guarded_le {m : IntMode} {key : Bytes} {expected : String} {ops : List HtableOp} {k : ℕ}
    (h : ops.length ≤ k) : (guarded m ht key expected ops).length ≤ k := by
  unfold guarded
  split
  · split
    · exact h
    · exact Nat.zero_le k
  · exact Nat.zero_le k

theorem length_stepOps_le (m : IntMode) (ht : Keyspace) (key : Bytes) (delta : Int) :
    (stepOps m ht key delta).length ≤ 1 := by
  unfold stepOps
  split
  · exact le_rfl
  · split <;> simp
  · exact Nat.zero_le _

theorem length_stepByOps_le (m : IntMode) (ht : Keyspace) (key arg : Bytes) (op : Int → Int → Int) :
    (stepByOps m ht key arg op).length ≤ 1 := by
  unfold stepByOps
  split
  · split <;> simp
  · split <;> simp
  · exact Nat.zero_le _

theorem length_lsetOps_le (m : IntMode) (ht : Keyspace) (key arg value : Bytes) :
    (lsetOps m ht key arg value).length ≤ 1 := by
  unfold lsetOps
  split
  · split <;> simp
  · exact Nat.zero_le _

/-- A command performs at most one operation for each argument. -/
theorem Command.length_ops_le (m : IntMode) (ht : Keyspace) (cmd : Command) : (cmd.ops m ht).length ≤ cmd.argv.length := by
  obtain ⟨type, argv⟩ := cmd
  unfold Command.ops
  dsimp only
  split
  case h_1 keys => rw [List.length_map]
  case h_2 | h_3 => simp
  case h_4 =>
    split
    · rw [List.length_map]
      exact length_pairs_le argv
    · exact Nat.zero_le _
  case h_5 key | h_6 key => exact length_guarded_le (length_stepOps_le m ht key _)
  case h_7 key arg | h_8 key arg => exact length_guarded_le ((length_stepByOps_le m ht key arg _).trans (by simp))
  case h_9 key args =>
    split
    · refine length_guarded_le ?_
      rw [List.length_map, List.length_cons]
      exact (length_pairs_le args).trans (Nat.le_succ _)
    · exact Nat.zero_le _
  case h_10 | h_11 | h_12 | h_17 | h_18 => exact length_guarded_le (by simp)
  case h_13 | h_14 => exact length_guarded_le (by simp)
  case h_15 key arg value => exact length_guarded_le ((length_lsetOps_le m ht key arg value).trans (by simp))
  case h_16 => exact length_guarded_le (by split <;> simp)
  case h_19 => exact Nat.zero_le _

theorem Bounded.run {ops : List HtableOp} {ht' : Keyspace} (h : Bounded n ht) (hn : n + ops.length ≤ 16449)
    (hr : Runs.run (HtableOp.step .exact) ht ops = .ok ht') : Bounded (n + ops.length) ht' := by
  induction ops generalizing n ht with
  | nil =>
    cases hr
    exact h
  | cons op ops ih =>
    obtain ⟨ht₁, hstep, hr⟩ := Runs.run_cons_eq_ok.mp hr
    rw [List.length_cons, ← Nat.add_assoc, Nat.add_right_comm] at hn ⊢
    exact ih (h.step (by omega) hstep) hn hr

theorem Bounded.mono {k : ℕ} (h : Bounded n ht) (hk : n ≤ k) : Bounded k ht :=
  ⟨h.table.mono hk, h.sound.mono fun _ _ ha => ha.mono (fun _ htmp => htmp.mono hk) fun _ hst => hst.mono hk⟩

theorem Bounded.interpret {cmd : Command} {ht' : Keyspace} {reply : Bytes} (h : Bounded n ht)
    (hn : n + cmd.argv.length < 16449) (hrun : interpret .exact ht cmd = .ok (ht', reply)) :
    Bounded (n + cmd.argv.length) ht' := by
  have hlen := cmd.length_ops_le .exact ht
  exact (h.run (by omega) (interpret_ops hrun)).mono (by omega)

theorem Bounded.run_agree {cmds : List Command} (h : Bounded n ht)
    (hn : n + (cmds.map (·.argv.length)).sum < 16449) :
    Simulation.run (MemKey.interpret .wrap) ht cmds = Simulation.run (MemKey.interpret .exact) ht cmds := by
  induction cmds generalizing n ht with
  | nil => rw [Simulation.run, Simulation.run]
  | cons cmd cmds ih =>
    rw [List.map_cons, List.sum_cons, ← Nat.add_assoc] at hn
    rw [Simulation.run, Simulation.run, h.interpret_agree cmd (by omega)]
    cases hrun : MemKey.interpret .exact ht cmd with
    | error e => rw [error_bind, error_bind]
    | ok r =>
      obtain ⟨ht', reply⟩ := r
      have hrest := ih (h.interpret (by omega) hrun) hn
      simp only [ok_bind, hrest]

theorem Bounded.run_bounded {cmds : List Command} {r : Keyspace × List Bytes} (h : Bounded n ht)
    (hn : n + (cmds.map (·.argv.length)).sum < 16449)
    (hrun : Simulation.run (MemKey.interpret .exact) ht cmds = .ok r) :
    Bounded (n + (cmds.map (·.argv.length)).sum) r.1 := by
  induction cmds generalizing n ht r with
  | nil =>
    cases hrun
    exact h
  | cons cmd cmds ih =>
    rw [List.map_cons, List.sum_cons, ← Nat.add_assoc] at hn ⊢
    obtain ⟨⟨ht₁, reply⟩, hcmd, htail⟩ := bind_eq_ok.mp hrun
    obtain ⟨⟨ht₂, replies⟩, hrest, heq⟩ := bind_eq_ok.mp htail
    cases heq
    exact ih (r := (ht₂, replies)) (h.interpret (by omega) hcmd) hn hrest

/-- In no run of commands with fewer than 16449 arguments in all do the tables of the built program overflow: it gives the
    replies, leaves the keyspace and runs into the faults that exact arithmetic on sizes, loads and probes does, and no
    table has outgrown the greatest prime whose square fits an `int`. -/
theorem no_overflow {cmds : List Command} (hn : (cmds.map (·.argv.length)).sum < 16449) :
    Simulation.run (interpret .wrap) (htableInit htBaseSize) cmds =
      Simulation.run (interpret .exact) (htableInit htBaseSize) cmds ∧
    IsGreatest {p : ℕ | p.Prime ∧ p * p < 2 ^ 31} 46337 ∧
    ∀ r, Simulation.run (interpret .wrap) (htableInit htBaseSize) cmds = .ok r →
      r.1.size ≤ 46337 ∧ ∀ a ∈ r.1.entries, Nests (·.size ≤ 46337) (·.size ≤ 46337) a := by
  have hagree : Simulation.run (interpret .wrap) (htableInit htBaseSize) cmds =
      Simulation.run (interpret .exact) (htableInit htBaseSize) cmds := Bounded.init.run_agree (by omega)
  refine ⟨hagree, Table.maxSize_isGreatest, fun r hrun => ?_⟩
  have hbounded := Bounded.init.run_bounded (by omega) (hagree.symm.trans hrun)
  exact ⟨hbounded.table.size, fun a ha =>
    (hbounded.sound.items a ha).mono (fun _ htmp => htmp.size) fun _ hst => hst.size⟩

/-- A run with fewer than 16449 arguments, in which no key that an operation inserts or a resize moves has step 0 unless its
    home slot is free, and no set stores a member again behind a tombstone: the built program replies as the store may, and
    crashes only where the store says so. -/
theorem server_answers {cmds : List Command} (hn : (cmds.map (·.argv.length)).sum < 16449)
    (hs : Runs.Along (serve .exact) (Command.Meets .exact fun ht op => op.Strides ht) (htableInit htBaseSize) cmds) :
    Ensures (Simulation.run (interpret .wrap) (htableInit htBaseSize) cmds)
      (fun r => ∃ s, Simulation.Plays Store.exec ∅ cmds s r.2 ∧ Represents .exact r.1 s)
      fun _ => Simulation.MayFail Store.exec ∅ cmds := by
  have hl : Runs.Along (serve .exact) (Command.Meets .exact (HtableOp.Lossless .exact)) (htableInit htBaseSize) cmds :=
    Runs.along_of_invariant Ready hs .init (fun _ _ h hc => h.meets hc) fun _ _ _ h hc hs => h.serve hc hs
  rw [Bounded.init.run_agree (by omega)]
  exact (interpret_simulates.run_spec Maps.init hl).mono (fun _ h => h) fun _ he => he.resolve_left fun h => h.exact

theorem no_overflow_mixed : ∃ r, Simulation.run (interpret .exact) (htableInit htBaseSize) mixed = .ok r ∧
    r.2 = mixedReplies ∧ r.1.size ≤ 46337 := by
  obtain ⟨r, hrun, hreplies⟩ := mixed_run
  have hn : (mixed.map (·.argv.length)).sum < 16449 := by decide +kernel
  obtain ⟨hagree, -, hsizes⟩ := no_overflow hn
  exact ⟨r, hagree.symm.trans hrun, hreplies, (hsizes r hrun).1⟩

theorem mixed_strides : Runs.Along (serve .exact) (Command.Meets .exact fun ht op => op.Strides ht)
    (htableInit htBaseSize) mixed := by
  decide +kernel

theorem server_answers_mixed : ∃ r s, Simulation.run (interpret .wrap) (htableInit htBaseSize) mixed = .ok r ∧
    r.2 = mixedReplies ∧ Simulation.Plays Store.exec ∅ mixed s r.2 ∧ Represents .exact r.1 s := by
  obtain ⟨r, hrun, hreplies⟩ := mixed_run
  obtain ⟨s, hplays, hrep⟩ := Ensures.of_ok (server_answers (by decide +kernel) mixed_strides) hrun
  exact ⟨r, s, hrun, hreplies, hplays, hrep⟩

end Alike
end MemKey
