import MemKey.Theorems.Containers
import MemKey.Theorems.Deque

/-! The indices of a list. The operations that take one agree on the sequence of the values; the handlers refuse an
    index or an interval that leaves the list, where the examples show an empty reply or the part inside. -/

namespace MemKey
open Outcome Linked Decimal Resp

/-- The elements at the positions from `lo` to `hi`. -/
def between {α : Type} (lo hi : Int) (l : List α) : List α :=
  (l.zipIdx.filter fun p => lo ≤ p.2 ∧ p.2 ≤ hi).map (·.1)

/-- The element at a position, if there is one. -/
def nth {α : Type} (l : List α) (i : Int) : Option α := if i < 0 then none else l[i.toNat]?

/-- The key holds the list of the values `vals`. -/
def ListAt (m : IntMode) (ht : Keyspace) (key : Bytes) (vals : List Bytes) : Prop :=
  ∃ ls, htableSearch m ht key = .ok (some ⟨.LIST_T, key, .list ls⟩) ∧ ls.contents = .ok vals

/-- The reads of the list of the key by index are those of the sequence `vals`. -/
structure Indexed (m : IntMode) (ht : Keyspace) (key : Bytes) (vals : List Bytes) : Prop where
  llen : htableLlen m ht key = .ok vals.length
  lindex : ∀ j : ℕ, htableLindex m ht key j = .ok vals[j]?
  lrange : ∀ b e : ℕ, b ≤ e → e < vals.length → htableLrange m ht key b e = .ok (some (between b e vals))
  lpos : ∀ value, (htableLpos m ht key value = .ok (-1) ∧ ∀ j : ℕ, htableLindex m ht key j ≠ .ok (some value)) ∨
    ∃ p : ℕ, htableLpos m ht key value = .ok p ∧ htableLindex m ht key p = .ok (some value) ∧
      ∀ j < p, htableLindex m ht key j ≠ .ok (some value)

/-- The interval check of the code: both ends lie in the list, in order. -/
def InRange (n : ℕ) (b e : Int) : Prop := 0 ≤ normId n b ∧ normId n b ≤ normId n e ∧ normId n e < n

instance (n : ℕ) (b e : Int) : Decidable (InRange n b e) := inferInstanceAs (Decidable (_ ∧ _))

/-- `LRANGE` replies with the part of the interval that is inside the list. -/
def RangeShown (m : IntMode) (ht : Keyspace) (key : Bytes) (vals : List Bytes) (bgn end_ : Bytes) (b e : Int) : Prop :=
  interpret m ht ⟨.LRANGE, [key, bgn, end_]⟩ =
    .ok (ht, replyArray (some (between (normId vals.length b) (normId vals.length e) vals)))

/-- `LINDEX` replies with the element, or nil if there is none. -/
def IndexShown (m : IntMode) (ht : Keyspace) (key : Bytes) (vals : List Bytes) (arg : Bytes) (i : Int) : Prop :=
  interpret m ht ⟨.LINDEX, [key, arg]⟩ = .ok (ht, replyString (nth vals (normId vals.length i)))

/-! ### Positions -/

theorem between_eq {α : Type} (lo hi : Int) (l : List α) :
    between lo hi l = (l.take (hi + 1).toNat).drop lo.toNat := by
  have hgo (k : ℕ) : ((l.zipIdx k).filter fun p => lo ≤ p.2 ∧ p.2 ≤ hi).map (·.1) =
      (l.take (hi + 1 - k).toNat).drop (lo - k).toNat := by
    induction l generalizing k with
    | nil => simp
    | cons a l ih =>
      have ih := ih (k + 1)
      rw [List.zipIdx_cons, List.filter_cons]
      by_cases hlo : lo ≤ k
      · by_cases hhi : (k : Int) ≤ hi
        · have htake : (hi + 1 - k).toNat = (hi + 1 - (k + 1 : ℕ)).toNat + 1 := by omega
          have hdrop : (lo - k).toNat = 0 := by omega
          have hdrop' : (lo - (k + 1 : ℕ)).toNat = 0 := by omega
          rw [hdrop', List.drop_zero] at ih
          rw [if_pos (by simp [hlo, hhi]), List.map_cons, ih, htake, hdrop, List.take_succ_cons, List.drop_zero]
        · have htake : (hi + 1 - k).toNat = 0 := by omega
          have htake' : (hi + 1 - (k + 1 : ℕ)).toNat = 0 := by omega
          rw [if_neg (by simp [hhi]), ih, htake, htake']
          simp
      · have hdrop : (lo - k).toNat = (lo - (k + 1 : ℕ)).toNat + 1 := by omega
        rw [if_neg (by simp [hlo]), ih, hdrop]
        cases htake : (hi + 1 - k).toNat with
        | zero =>
          have htake' : (hi + 1 - (k + 1 : ℕ)).toNat = 0 := by omega
          rw [htake']
          simp
        | succ n =>
          have htake' : (hi + 1 - (k + 1 : ℕ)).toNat = n := by omega
          rw [htake', List.take_succ_cons, List.drop_succ_cons]
  have h := hgo 0
  rwa [Nat.cast_zero, Int.sub_zero, Int.sub_zero] at h

theorem length_between {α : Type} (lo hi : Int) (l : List α) :
    (between lo hi l).length = min (hi + 1).toNat l.length - lo.toNat := by
  rw [between_eq, List.length_drop, List.length_take]

theorem nth_normal {α : Type} (l : List α) {i : Int} (hi : 0 ≤ i) : nth l i = l[i.toNat]? := if_neg (by omega)

theorem nth_eq_none {α : Type} {l : List α} {i : Int} (h : i < 0 ∨ l.length ≤ i) : nth l i = none := by
  unfold nth
  split
  · rfl
  · exact List.getElem?_eq_none (by omega)

section Indices
variable {m : IntMode} {ht : Keyspace} {key : Bytes} {vals : List Bytes} {ls : CList} {cells : List (ℕ × Bytes)}

/-! ### The operations -/

theorem lindex_eq (hsearch : htableSearch m ht key = .ok (some ⟨.LIST_T, key, .list ls⟩)) (hrep : Rep ls cells)
    (id : Int) : htableLindex m ht key id = .ok (cells.map Prod.snd)[id.toNat]? := by
  rw [htableLindex, htableRead_found hsearch]
  dsimp only
  rw [Value.asList, ok_bind]
  rcases listIndex_spec hrep id with ⟨hindex, hnone⟩ | ⟨a, nd, hindex, hread, hsome⟩
  · rw [hindex, hnone]
    rfl
  · rw [hindex, hsome, ok_bind]
    dsimp only
    rw [hread]
    rfl

theorem lpos_eq (hsearch : htableSearch m ht key = .ok (some ⟨.LIST_T, key, .list ls⟩)) (hrep : Rep ls cells)
    (value : Bytes) : htableLpos m ht key value = .ok (match (cells.map Prod.snd).findIdx? (· = value) with
      | some j => (j : Int)
      | none => -1) := by
  rw [htableLpos, htableRead_found hsearch]
  exact listPos_spec hrep value

theorem indexed (hsearch : htableSearch m ht key = .ok (some ⟨.LIST_T, key, .list ls⟩)) (hrep : Rep ls cells) :
    Indexed m ht key (cells.map Prod.snd) := by
  have hindex (j : ℕ) : htableLindex m ht key j = .ok (cells.map Prod.snd)[j]? := lindex_eq hsearch hrep j
  refine ⟨?_, hindex, fun b e hbe he => ?_, fun value => ?_⟩
  · rw [htableLlen_eq hsearch rfl, hrep.len, List.length_map]
  · rw [List.length_map] at he
    rw [htableLrange_slice hsearch rfl rfl hrep hbe he, between_eq, List.map_take, List.map_drop, List.drop_take]
    rfl
  · have hpos := lpos_eq hsearch hrep value
    cases hfind : (cells.map Prod.snd).findIdx? (· = value) with
    | none =>
      rw [hfind] at hpos
      refine .inl ⟨hpos, fun j hj => ?_⟩
      have hmem := List.mem_of_getElem? (Except.ok.inj ((hindex j).symm.trans hj))
      simpa using List.findIdx?_eq_none_iff.mp hfind value hmem
    | some p =>
      rw [hfind] at hpos
      obtain ⟨hp, hat, hbefore⟩ := List.findIdx?_eq_some_iff_getElem.mp hfind
      refine .inr ⟨p, hpos, ?_, fun j hj hval => ?_⟩
      · rw [hindex, List.getElem?_eq_getElem hp]
        simpa using hat
      · have hget := Except.ok.inj ((hindex j).symm.trans hval)
        rw [List.getElem?_eq_getElem (hj.trans hp), Option.some.injEq] at hget
        simpa [hget] using hbefore j hj

theorem lset_indexed (hk : Keyed m ht) (hsearch : htableSearch m ht key = .ok (some ⟨.LIST_T, key, .list ls⟩))
    (hrep : Rep ls cells) {i : Int} (hi : i.toNat < cells.length) (value : Bytes) :
    ∃ ht', htableLset m ht key i value = .ok (ht', true) ∧
      Indexed m ht' key ((cells.map Prod.snd).set i.toNat value) := by
  obtain ⟨ls', cells', hset, hrep', hvals⟩ := listSet_spec hrep i value
  obtain ⟨ix, hfind⟩ := htableFind_of_search hsearch
  refine ⟨ht.put ix ⟨.LIST_T, key, .list ls'⟩, ?_, ?_⟩
  · rw [htableLset, htableUpdate, hfind, ok_bind]
    dsimp only
    rw [Value.asList, ok_bind, hset, decide_eq_true hi]
    rfl
  · rw [← hvals]
    exact indexed (hk.search_put hfind rfl) hrep'

theorem checkId_eq (hsearch : htableSearch m ht key = .ok (some ⟨.LIST_T, key, .list ls⟩)) (hrep : Rep ls cells)
    (id : Int) : htableCheckId m ht key id =
      .ok (if InRange cells.length id id then 1 else 0, normId cells.length id) := by
  have hiff : normId cells.length id ≥ 0 ∧ normId cells.length id < cells.length ↔ InRange cells.length id id :=
    ⟨fun h => ⟨h.1, Int.le_refl _, h.2⟩, fun h => ⟨h.1, h.2.2⟩⟩
  rw [htableCheckId, htableRead_found hsearch, ← if_congr hiff rfl rfl, ← hrep.len]
  rfl

theorem checkIds_eq (hsearch : htableSearch m ht key = .ok (some ⟨.LIST_T, key, .list ls⟩)) (hrep : Rep ls cells)
    (b e : Int) : htableCheckIds m ht key b e =
      .ok (if InRange cells.length b e then 1 else 0, normId cells.length b, normId cells.length e) := by
  have hiff : normId cells.length b ≤ normId cells.length e ∧
      (normId cells.length b ≥ 0 ∧ normId cells.length b < cells.length) ∧
      (normId cells.length e ≥ 0 ∧ normId cells.length e < cells.length) ↔ InRange cells.length b e := by
    unfold InRange
    omega
  rw [htableCheckIds, htableRead_found hsearch, ← if_congr hiff rfl rfl, ← hrep.len]
  rfl

/-- The check says 1 and not 0. -/
theorem inRange_of_code {n : ℕ} {b e code : Int} (h : code = if InRange n b e then 1 else 0) (hcode : code > 0) :
    InRange n b e := by
  by_contra hout
  rw [h, if_neg hout] at hcode
  exact absurd hcode (by decide)

theorem Reachable.list {a : HashTableItem Value} (h : Reachable m ht) (hsearch : htableSearch m ht key = .ok (some a))
    (htype : a.type = .LIST_T) : ∃ ls cells, a = ⟨.LIST_T, key, .list ls⟩ ∧ Rep ls cells := by
  obtain ⟨htag, hkey⟩ := (h.sound.search_spec key).of_ok hsearch a rfl
  obtain ⟨type, k, v⟩ := a
  obtain rfl : type = .LIST_T := htype
  obtain rfl : k = key := hkey
  obtain ⟨ls, cells, hv, hrep, -⟩ := asList_spec htag
  obtain rfl : v = .list ls := hv
  exact ⟨ls, cells, rfl, hrep⟩

/-- Every list is a sequence of values, on which the operations with an index agree once it is accepted. -/
theorem list_indices_agree {a : HashTableItem Value} (h : Reachable m ht)
    (hsearch : htableSearch m ht key = .ok (some a)) (htype : a.type = .LIST_T) :
    ∃ vals, ListAt m ht key vals ∧ Indexed m ht key vals ∧
      (∀ id code i, htableCheckId m ht key id = .ok (code, i) → code > 0 →
        0 ≤ i ∧ i < vals.length ∧ i = (if id < 0 then vals.length + id else id) ∧
        (∃ v, nth vals i = some v ∧ htableLindex m ht key i = .ok (some v)) ∧
        ∀ value, ∃ ht', htableLset m ht key i value = .ok (ht', true) ∧ Indexed m ht' key (vals.set i.toNat value)) ∧
      ∀ begin_ end_ code b e, htableCheckIds m ht key begin_ end_ = .ok (code, b, e) → code > 0 →
        0 ≤ b ∧ b ≤ e ∧ e < vals.length ∧ b = (if begin_ < 0 then vals.length + begin_ else begin_) ∧
        e = (if end_ < 0 then vals.length + end_ else end_) ∧
        htableLrange m ht key b e = .ok (some (between b e vals)) := by
  obtain ⟨ls, cells, rfl, hrep⟩ := h.list hsearch htype
  have hindexed := indexed hsearch hrep
  have hlen : (cells.map Prod.snd).length = cells.length := List.length_map _
  refine ⟨cells.map Prod.snd, ⟨ls, hsearch, hrep.contents⟩, hindexed, ?_, ?_⟩
  · intro id code i hcheck hcode
    obtain ⟨hcode', hi⟩ := Prod.mk.inj (Except.ok.inj (hcheck.symm.trans (checkId_eq hsearch hrep id)))
    obtain ⟨h0, -, hn⟩ := inRange_of_code hcode' hcode
    rw [← hi] at h0 hn
    have hlt : i.toNat < cells.length := by omega
    have hget := List.getElem?_eq_getElem (hlen.symm ▸ hlt)
    refine ⟨h0, by omega, by rw [hlen]; exact hi, ?_, fun value => lset_indexed h.sound.keyed hsearch hrep hlt value⟩
    exact ⟨_, (nth_normal _ h0).trans hget, (lindex_eq hsearch hrep i).trans (congrArg _ hget)⟩
  · intro begin_ end_ code b e hcheck hcode
    obtain ⟨hcode', hids⟩ := Prod.mk.inj (Except.ok.inj (hcheck.symm.trans (checkIds_eq hsearch hrep begin_ end_)))
    obtain ⟨hb, he⟩ := Prod.mk.inj hids
    obtain ⟨h0, hle, hn⟩ := inRange_of_code hcode' hcode
    rw [← hb] at h0 hle
    rw [← he] at hle hn
    refine ⟨h0, hle, by omega, by rw [hlen]; exact hb, by rw [hlen]; exact he, ?_⟩
    obtain ⟨b, rfl⟩ := Int.eq_ofNat_of_zero_le h0
    obtain ⟨e, rfl⟩ := Int.eq_ofNat_of_zero_le (h0.trans hle)
    exact hindexed.lrange b e (by omega) (by omega)

/-! ### The handlers -/

/-- An index that `strtoi` reads is the index itself, unless that is outside every list. -/
theorem normId_wrap {n : ℕ} {i : Int} (h : FitsInt i ∨ n < 2 ^ 31) :
    normId n (wrap32 i) = normId n i ∨ normId n i < 0 ∨ n ≤ normId n i := by
  by_cases hi : FitsInt i
  · rw [hi.wrap]
    exact .inl rfl
  · have hn := h.resolve_left hi
    unfold FitsInt at hi
    unfold normId
    omega

theorem execLindex_eq (hsearch : htableSearch m ht key = .ok (some ⟨.LIST_T, key, .list ls⟩)) (hrep : Rep ls cells)
    {arg : Bytes} (harg : isNumber arg = true) :
    interpret m ht ⟨.LINDEX, [key, arg]⟩ = .ok (ht, if InRange cells.length (strtoi arg) (strtoi arg)
      then replyString (nth (cells.map Prod.snd) (normId cells.length (strtoi arg))) else replyErrIntid) := by
  change execLindex m ht ⟨.LINDEX, [key, arg]⟩ = _
  unfold execLindex
  dsimp only
  rw [typed_found hsearch rfl, if_pos harg, checkId_eq hsearch hrep, ok_bind]
  dsimp only
  by_cases hin : InRange cells.length (strtoi arg) (strtoi arg)
  · rw [if_pos hin, if_pos hin, if_neg (by decide), if_pos (by decide), lindex_eq hsearch hrep, nth_normal _ hin.1]
    rfl
  · rw [if_neg hin, if_neg hin, if_pos rfl]

theorem execLrange_eq (hsearch : htableSearch m ht key = .ok (some ⟨.LIST_T, key, .list ls⟩)) (hrep : Rep ls cells)
    {bgn end_ : Bytes} (hbgn : isNumber bgn = true) (hend : isNumber end_ = true) :
    interpret m ht ⟨.LRANGE, [key, bgn, end_]⟩ = .ok (ht, if InRange cells.length (strtoi bgn) (strtoi end_)
      then replyArray (some (between (normId cells.length (strtoi bgn)) (normId cells.length (strtoi end_))
        (cells.map Prod.snd))) else replyErrIntid) := by
  change execLrange m ht ⟨.LRANGE, [key, bgn, end_]⟩ = _
  unfold execLrange
  dsimp only
  rw [typed_found hsearch rfl, if_pos (by rw [hbgn, hend, Bool.and_true]), checkIds_eq hsearch hrep, ok_bind]
  dsimp only
  by_cases hin : InRange cells.length (strtoi bgn) (strtoi end_)
  · obtain ⟨hlo, hle, hhi⟩ := id hin
    rw [if_pos hin, if_pos hin, if_neg (by decide), if_pos (by decide)]
    obtain ⟨b, hb⟩ := Int.eq_ofNat_of_zero_le hlo
    obtain ⟨e, he⟩ := Int.eq_ofNat_of_zero_le (hlo.trans hle)
    rw [hb, he, (indexed hsearch hrep).lrange b e (by omega) (by rw [List.length_map]; omega)]
    rfl
  · rw [if_neg hin, if_neg hin, if_pos rfl]

theorem replyErrIntid_ne_array (l : List Bytes) : replyErrIntid ≠ replyArray (some l) := by
  obtain ⟨e, he⟩ := replyErrIntid_isError
  rw [he, replyArray_some_eq, ne_eq, Reply.encode_inj]
  exact Reply.noConfusion

theorem replyErrIntid_ne_string (s : Option Bytes) : replyErrIntid ≠ replyString s := by
  obtain ⟨e, he⟩ := replyErrIntid_isError
  rw [he, replyString_eq, ne_eq, Reply.encode_inj]
  exact Reply.noConfusion

theorem replyString_inj {s t : Option Bytes} (h : replyString s = replyString t) : s = t := by
  rw [replyString_eq, replyString_eq, Reply.encode_inj, Reply.scalar.injEq] at h
  cases s <;> cases t <;> cases h <;> rfl

theorem length_of_replyArray {l l' : List Bytes} (h : replyArray (some l) = replyArray (some l')) :
    l.length = l'.length := by
  rw [replyArray_some_eq, replyArray_some_eq, Reply.encode_inj, Reply.array.injEq] at h
  simpa using congrArg List.length h

/-- The interval that the code accepts and the one that the examples show select as many elements only if one is
    the other, clipped. -/
theorem between_clipped {n : ℕ} {lo hi b e : Int} (hb : b = lo ∨ lo < 0 ∨ n ≤ lo) (he : e = hi ∨ hi < 0 ∨ n ≤ hi)
    (hin : 0 ≤ b ∧ b ≤ e ∧ e < n) {l : List Bytes} (hl : l.length = n) :
    (between b e l).length = (between lo hi l).length ↔ b = max lo 0 ∧ e = min hi (n - 1) := by
  rw [length_between, length_between, hl]
  omega

theorem between_of_clipped {lo hi b e : Int} {l : List Bytes} (hb : b = max lo 0) (he : e = min hi (l.length - 1))
    (h0 : 0 ≤ e) : between b e l = between lo hi l := by
  rw [between_eq, between_eq, show b.toNat = lo.toNat by omega]
  congr 1
  rw [List.take_eq_take_iff]
  omega

theorem rangeShown_iff (hsearch : htableSearch m ht key = .ok (some ⟨.LIST_T, key, .list ls⟩)) (hrep : Rep ls cells)
    {bgn end_ : Bytes} {b e : Int} (hbgn : readInt bgn = some b) (hend : readInt end_ = some e)
    (hfits : FitsInt b ∧ FitsInt e ∨ cells.length < 2 ^ 31) :
    RangeShown m ht key (cells.map Prod.snd) bgn end_ b e ↔ InRange cells.length (wrap32 b) (wrap32 e) ∧
      normId cells.length (wrap32 b) = max (normId cells.length b) 0 ∧
      normId cells.length (wrap32 e) = min (normId cells.length e) (cells.length - 1) := by
  obtain ⟨hnum, hval⟩ := strtoi_readInt hbgn
  obtain ⟨hnum', hval'⟩ := strtoi_readInt hend
  have hlen : (cells.map Prod.snd).length = cells.length := List.length_map _
  have hb := normId_wrap (n := cells.length) (i := b) (hfits.imp_left And.left)
  have he := normId_wrap (n := cells.length) (i := e) (hfits.imp_left And.right)
  rw [RangeShown, execLrange_eq hsearch hrep hnum hnum', hval, hval', Except.ok.injEq, Prod.mk.injEq,
    and_iff_right rfl, hlen]
  by_cases hin : InRange cells.length (wrap32 b) (wrap32 e)
  · rw [if_pos hin, and_iff_right hin]
    constructor
    · intro hreply
      exact (between_clipped hb he hin hlen).mp (length_of_replyArray hreply)
    · rintro ⟨hlo, hhi⟩
      rw [between_of_clipped hlo (by rw [hlen]; exact hhi) (hin.1.trans hin.2.1)]
  · rw [if_neg hin]
    exact iff_of_false (replyErrIntid_ne_array _) fun h => hin h.1

theorem indexShown_iff (hsearch : htableSearch m ht key = .ok (some ⟨.LIST_T, key, .list ls⟩)) (hrep : Rep ls cells)
    {arg : Bytes} {i : Int} (harg : readInt arg = some i) (hfits : FitsInt i ∨ cells.length < 2 ^ 31) :
    IndexShown m ht key (cells.map Prod.snd) arg i ↔ InRange cells.length i i := by
  obtain ⟨hnum, hval⟩ := strtoi_readInt harg
  have hlen : (cells.map Prod.snd).length = cells.length := List.length_map _
  rw [IndexShown, execLindex_eq hsearch hrep hnum, hval, Except.ok.injEq, Prod.mk.injEq, and_iff_right rfl, hlen]
  rcases normId_wrap (n := cells.length) hfits with heq | hout
  · have hiff : InRange cells.length (wrap32 i) (wrap32 i) ↔ InRange cells.length i i := by
      simp only [InRange, heq]
    by_cases hin : InRange cells.length i i
    · rw [if_pos (hiff.mpr hin), heq]
      exact iff_of_true rfl hin
    · rw [if_neg (mt hiff.mp hin)]
      exact iff_of_false (replyErrIntid_ne_string _) hin
  · -- The index is outside the list, and what the code reads in its place is refused or finds an element.
    refine iff_of_false (fun hreply => ?_) fun hin => by
      obtain ⟨h0, -, hn⟩ := hin
      omega
    rw [nth_eq_none (i := normId cells.length i) (by rw [hlen]; exact hout)] at hreply
    split at hreply
    · obtain ⟨h0, -, hn⟩ := ‹InRange _ _ _›
      have hnone := replyString_inj hreply
      rw [nth_normal _ h0, List.getElem?_eq_none_iff] at hnone
      omega
    · exact replyErrIntid_ne_string _ hreply

/-- `LRANGE` and `LINDEX` of an existing list reply as the examples show exactly if the code accepts the indices, and,
    where an argument fits no `int`, what `strtoi` makes of it selects the same elements. -/
theorem list_indices_shown (h : Reachable m ht) (hl : ListAt m ht key vals) :
    (∀ bgn end_ b e, readInt bgn = some b → readInt end_ = some e →
      (FitsInt b → FitsInt e → (RangeShown m ht key vals bgn end_ b e ↔ InRange vals.length b e)) ∧
      (vals.length < 2 ^ 31 → (RangeShown m ht key vals bgn end_ b e ↔ InRange vals.length (wrap32 b) (wrap32 e) ∧
        normId vals.length (wrap32 b) = max (normId vals.length b) 0 ∧
        normId vals.length (wrap32 e) = min (normId vals.length e) (vals.length - 1)))) ∧
    ∀ arg i, readInt arg = some i → FitsInt i ∨ vals.length < 2 ^ 31 →
      (IndexShown m ht key vals arg i ↔ InRange vals.length i i) := by
  obtain ⟨ls, hsearch, hvals⟩ := hl
  obtain ⟨ls', cells, heq, hrep⟩ := h.list hsearch rfl
  cases heq
  obtain rfl : cells.map Prod.snd = vals := Except.ok.inj (hrep.contents.symm.trans hvals)
  rw [List.length_map]
  refine ⟨fun bgn end_ b e hbgn hend => ⟨fun hb he => ?_, fun hlen => ?_⟩, fun arg i harg hfits => ?_⟩
  · refine (rangeShown_iff hsearch hrep hbgn hend (.inl ⟨hb, he⟩)).trans ?_
    rw [hb.wrap, he.wrap]
    refine and_iff_left_of_imp fun hin => ?_
    obtain ⟨h0, hle, hn⟩ := hin
    omega
  · exact rangeShown_iff hsearch hrep hbgn hend (.inr hlen)
  · exact indexShown_iff hsearch hrep harg hfits

end Indices

/-- The keyspace that `RPUSH a x y z` leaves. -/
def threeItems : Keyspace :=
  ⟨2, 1, [.live ⟨.LIST_T, str "a", .list ⟨3, some 0, some 2, [some ⟨str "x", some 1, none⟩,
    some ⟨str "y", some 2, some 0⟩, some ⟨str "z", none, some 1⟩]⟩⟩, .null]⟩

theorem threeItems_reached : Reachable .wrap threeItems :=
  .step .init trivial (show serve .wrap _ ⟨.RPUSH, [str "a", str "x", str "y", str "z"]⟩ = _ from rfl)

theorem threeItems_list : ListAt .wrap threeItems (str "a") [str "x", str "y", str "z"] :=
  ⟨_, rfl, by decide⟩

/-- Of three elements, the index -1 is that of the last one, and the indices 0 and -1 enclose all of them. -/
theorem list_indices_agree_three :
    htableLindex .wrap threeItems (str "a") 2 = .ok (some (str "z")) ∧
    (∃ ht', htableLset .wrap threeItems (str "a") 2 (str "w") = .ok (ht', true) ∧
      Indexed .wrap ht' (str "a") [str "x", str "y", str "w"]) ∧
    htableLrange .wrap threeItems (str "a") 0 2 = .ok (some [str "x", str "y", str "z"]) := by
  have hid : htableCheckId .wrap threeItems (str "a") (-1) = .ok (1, 2) := rfl
  have hids : htableCheckIds .wrap threeItems (str "a") 0 (-1) = .ok (1, 0, 2) := rfl
  obtain ⟨ls, hsearch, hcontents⟩ := threeItems_list
  obtain ⟨vals, ⟨ls', hsearch', hcontents'⟩, -, hindex, hrange⟩ := list_indices_agree threeItems_reached hsearch rfl
  cases hsearch.symm.trans hsearch'
  cases hcontents.symm.trans hcontents'
  obtain ⟨-, -, -, ⟨v, hv, hlindex⟩, hset⟩ := hindex _ _ _ hid (by decide)
  obtain ⟨-, -, -, -, -, hlrange⟩ := hrange _ _ _ _ _ hids (by decide)
  cases hv
  exact ⟨hlindex, hset (str "w"), hlrange⟩

/-- `LRANGE a 0 -1` and `LINDEX a 1`. -/
theorem list_indices_shown_three :
    RangeShown .wrap threeItems (str "a") [str "x", str "y", str "z"] (str "0") (str "-1") 0 (-1) ∧
    IndexShown .wrap threeItems (str "a") [str "x", str "y", str "z"] (str "1") 1 := by
  have h := list_indices_shown threeItems_reached threeItems_list
  refine ⟨((h.1 _ _ 0 (-1) rfl rfl).1 (by decide) (by decide)).mpr (by decide), ?_⟩
  exact (h.2 _ 1 rfl (.inl (by decide))).mpr (by decide)

/-- `LRANGE a 0 4` and `LINDEX a 10` on a list of three elements are refused. -/
theorem list_index_refused :
    Reachable .wrap threeItems ∧ ListAt .wrap threeItems (str "a") [str "x", str "y", str "z"] ∧
    interpret .wrap threeItems ⟨.LRANGE, [str "a", str "0", str "4"]⟩ = .ok (threeItems, replyErrIntid) ∧
    ¬RangeShown .wrap threeItems (str "a") [str "x", str "y", str "z"] (str "0") (str "4") 0 4 ∧
    interpret .wrap threeItems ⟨.LINDEX, [str "a", str "10"]⟩ = .ok (threeItems, replyErrIntid) ∧
    ¬IndexShown .wrap threeItems (str "a") [str "x", str "y", str "z"] (str "10") 10 := by
  have hrange : interpret .wrap threeItems ⟨.LRANGE, [str "a", str "0", str "4"]⟩ = .ok (threeItems, replyErrIntid) := rfl
  have hindex : interpret .wrap threeItems ⟨.LINDEX, [str "a", str "10"]⟩ = .ok (threeItems, replyErrIntid) := rfl
  refine ⟨threeItems_reached, threeItems_list, hrange, fun h => ?_, hindex, fun h => ?_⟩
  · exact replyErrIntid_ne_array _ (Prod.mk.inj (Except.ok.inj (hrange.symm.trans h))).2
  · exact replyErrIntid_ne_string _ (Prod.mk.inj (Except.ok.inj (hindex.symm.trans h))).2

end MemKey
