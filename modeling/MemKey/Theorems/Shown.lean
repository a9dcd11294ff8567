import MemKey.Theorems.Batch
import MemKey.Theorems.Indices

/-! The commands that reply with an array, against those that reply with one string. An array shows the text that the
    latter reply if and only if each string shows as itself. -/

namespace MemKey
open Outcome Linked Decimal

/-- The commands reply the texts, one after another, and the array shows them if and only if each shows as itself. -/
def ShowsReads (m : IntMode) (ht : Keyspace) (reply : Bytes) (alone : List Command) : Prop :=
  ∃ texts : List (Option Bytes), List.Forall₂ (fun cmd v => interpret m ht cmd = .ok (ht, replyString v)) alone texts ∧
    (ShowsText reply texts ↔ ∀ s, some s ∈ texts → ShowsExactly s)

/-- The array shows the strings if and only if each shows as itself. -/
def ShowsStrings (reply : Bytes) (strings : List Bytes) : Prop :=
  ShowsText reply (strings.map some) ↔ ∀ s ∈ strings, ShowsExactly s

section Shown
variable {m : IntMode} {ht tmp : Keyspace} {key : Bytes} {names : List Bytes} {batch : Command} {alone : Bytes → Command}
  {a : HashTableItem Value} {pairs : List (Bytes × Bytes)} {ls : CList} {cells : List (ℕ × Bytes)} {st : CSet}

theorem showsStrings_replyArray (strings : List Bytes) : ShowsStrings (replyArray (some strings)) strings :=
  showsText_replyArray

theorem Gathers.shows (h : Gathers m ht batch alone names) :
    Ensures (interpret m ht batch) (fun r => ShowsReads m ht r.2 (names.map alone)) (Escapes m) := by
  refine h.post fun r hr => ?_
  obtain ⟨-, vals, hreply, hvals⟩ := hr
  rw [hreply]
  exact ⟨vals, List.forall₂_map_left_iff.mpr hvals, showsText_replyArrayN⟩

/-! ### Hashes -/

theorem interpret_array {array : Option (List Bytes)} {type : CommandType} {read : Except Fault (Option (List Bytes))}
    {expected : String} (hsearch : htableSearch m ht key = .ok (some a)) (hexp : str expected = typeName a.type)
    (hcmd : interpret m ht ⟨type, [key]⟩ = typed m ht key expected (do .ok (ht, replyArray (← read))))
    (hread : read = .ok array) : interpret m ht ⟨type, [key]⟩ = .ok (ht, replyArray array) := by
  rw [hcmd, typed_found hsearch hexp, hread, ok_bind]

/-- What the enumerations of a hash reply, for the fields `pairs` with their values. -/
structure ShowsHash (m : IntMode) (ht : Keyspace) (key : Bytes) (pairs : List (Bytes × Bytes)) : Prop where
  hget : ∀ p ∈ pairs, interpret m ht ⟨.HGET, [key, p.1]⟩ = .ok (ht, replyString (some p.2))
  hkeys : ∃ reply, interpret m ht ⟨.HKEYS, [key]⟩ = .ok (ht, reply) ∧ ShowsStrings reply (pairs.map (·.1))
  hvals : ∃ reply, interpret m ht ⟨.HVALS, [key]⟩ = .ok (ht, reply) ∧ ShowsStrings reply (pairs.map (·.2))
  hgetall : ∃ reply, interpret m ht ⟨.HGETALL, [key]⟩ = .ok (ht, reply) ∧
    ShowsStrings reply (pairs.flatMap fun p => [p.1, p.2])

theorem Enumerates.shows (he : Enumerates m ht key pairs) (hsearch : htableSearch m ht key = .ok (some a))
    (htype : a.type = .HASH_T) : ShowsHash m ht key pairs := by
  have hexp : str "hash" = typeName a.type := by rw [htype]; rfl
  refine ⟨fun p hp => interpret_hget hsearch htype ((he.found p.1 p.2).mp hp), ?_, ?_, ?_⟩
  · exact ⟨_, interpret_array hsearch hexp rfl he.keys, showsStrings_replyArray _⟩
  · exact ⟨_, interpret_array hsearch hexp rfl he.vals, showsStrings_replyArray _⟩
  · exact ⟨_, interpret_array hsearch hexp rfl he.all, showsStrings_replyArray _⟩

/-! ### Lists and sets -/

/-- `LINDEX` by the text of an index that lies in the list. -/
theorem interpret_lindex (hsearch : htableSearch m ht key = .ok (some ⟨.LIST_T, key, .list ls⟩)) (hrep : Rep ls cells)
    (hlen : cells.length ≤ 2 ^ 31) {i : ℕ} (hi : i < cells.length) :
    interpret m ht ⟨.LINDEX, [key, intostr i]⟩ = .ok (ht, replyString (cells.map Prod.snd)[i]?) := by
  have hnum : isNumber (intostr i) = true := (strtoi_readInt (readInt_int i)).1
  have hval : strtoi (intostr i) = i := strtoi_intostr (by omega) (by omega)
  have hnorm : normId cells.length (i : Int) = i := if_neg (by omega)
  have hin : InRange cells.length (i : Int) i := by
    unfold InRange
    omega
  rw [execLindex_eq hsearch hrep hnum, hval, if_pos hin, hnorm, nth_normal _ (Int.natCast_nonneg i), Int.toNat_natCast]

/-- The part of a list between two positions, position by position. -/
theorem map_range'_getElem? {α : Type} (l : List α) {b e : ℕ} (he : e ≤ l.length) :
    (List.range' b (e - b)).map (l[·]?) = ((l.take e).drop b).map some := by
  refine List.ext_getElem (by simp [he]) fun j hj _ => ?_
  have hlt : b + j < l.length := by
    rw [List.length_map, List.length_range'] at hj
    omega
  simp [hlt]

/-- `LRANGE` between two indices that the check accepts shows what `LINDEX` replies for each index between them. -/
theorem lrange_shows (hsearch : htableSearch m ht key = .ok (some ⟨.LIST_T, key, .list ls⟩)) (hrep : Rep ls cells)
    (hlen : cells.length ≤ 2 ^ 31) {bgn end_ : Bytes} (hbgn : isNumber bgn = true) (hend : isNumber end_ = true) {b e : ℕ}
    (hb : normId cells.length (strtoi bgn) = b) (he : normId cells.length (strtoi end_) = e) (hbe : b ≤ e)
    (hlt : e < cells.length) : ∃ reply, interpret m ht ⟨.LRANGE, [key, bgn, end_]⟩ = .ok (ht, reply) ∧
      ShowsReads m ht reply ((List.range' b (e + 1 - b)).map fun i : ℕ => ⟨.LINDEX, [key, intostr i]⟩) := by
  have hin : InRange cells.length (strtoi bgn) (strtoi end_) := by
    unfold InRange
    omega
  have hpart := map_range'_getElem? (cells.map Prod.snd) (b := b) (e := e + 1) (by rw [List.length_map]; omega)
  refine ⟨_, execLrange_eq hsearch hrep hbgn hend, ?_⟩
  rw [if_pos hin, hb, he, between_eq, Int.toNat_natCast, show ((e : Int) + 1).toNat = e + 1 by omega]
  refine ⟨_, ?_, showsText_replyArray.trans ?_⟩
  · rw [← hpart]
    refine List.forall₂_map_left_iff.mpr (List.forall₂_map_right_iff.mpr (List.forall₂_same.mpr fun i hi => ?_))
    obtain ⟨-, hhi⟩ := List.mem_range'_1.mp hi
    exact interpret_lindex hsearch hrep hlen (by omega)
  · simp only [List.mem_map_of_injective (Option.some_injective _)]

/-- `LPOP` replies the first of the values. -/
theorem lpop_replies (hsearch : htableSearch m ht key = .ok (some ⟨.LIST_T, key, .list ls⟩)) (hrep : Rep ls cells)
    (hne : cells ≠ []) {r : Keyspace × Bytes} (hpop : interpret m ht ⟨.LPOP, [key]⟩ = .ok r) :
    r.2 = replyString (cells.map Prod.snd).head? := by
  change typed m ht key "list" _ = _ at hpop
  rw [typed_found hsearch rfl] at hpop
  obtain ⟨⟨ht', res⟩, hshrink, heq⟩ := bind_eq_ok.mp hpop
  cases heq
  obtain ⟨⟨a, v⟩, cells, rfl⟩ := List.exists_cons_of_ne_nil hne
  obtain ⟨ls', hlpop, -, hread⟩ := listLpop_spec hrep
  rcases htableShrink_cases hshrink with ⟨hfind, -, -⟩ | ⟨ix, item, item', empty, hfind, hact, -⟩
  · rw [htableSearch, hfind] at hsearch
    cases hsearch
  · rw [htableSearch, hfind] at hsearch
    cases hsearch
    obtain ⟨_, hls, hact⟩ := bind_eq_ok.mp hact
    cases hls
    obtain ⟨⟨ls₁, nd⟩, hlpop', hact⟩ := bind_eq_ok.mp hact
    cases hlpop.symm.trans hlpop'
    obtain ⟨⟨b, nd⟩, hread', heq⟩ := bind_eq_ok.mp hact
    cases hread.symm.trans hread'
    have hres : some v = res := (Prod.mk.inj (Prod.mk.inj (Except.ok.inj heq)).2).2
    exact congrArg replyString hres.symm

theorem smembers_shows (hsearch : htableSearch m ht key = .ok (some a)) (hv : a.value = .set st) (htype : a.type = .SET_T) :
    ∃ reply, interpret m ht ⟨.SMEMBERS, [key]⟩ = .ok (ht, reply) ∧ ShowsStrings reply (setMembers st) := by
  have hexp : str "set" = typeName a.type := by rw [htype]; rfl
  have hread : htableSmembers m ht key = .ok (some (setMembers st)) := by
    rw [htableSmembers, htableRead_found hsearch, hv]
    rfl
  exact ⟨_, interpret_array hsearch hexp rfl hread, showsStrings_replyArray _⟩

/-! ### All of them -/

/-- The commands that reply with an array show the texts that the commands for one string reply, exactly if each of
    these looks like no number or is the text of an `int`: `MGET` those of `GET`, `HMGET`, `HVALS` and `HGETALL` those of
    `HGET`, `LRANGE` those of `LINDEX`, the first of which `LPOP` replies. `HKEYS`, `HGETALL` and `SMEMBERS` show the
    names in the same way. -/
theorem array_commands_show_text (h : Reachable m ht) :
    (∀ names, names ≠ [] → (∀ name ∈ names, ∀ a, htableSearch m ht name = .ok (some a) → a.type = .STR_T) →
      Ensures (interpret m ht ⟨.MGET, names⟩) (fun r => ShowsReads m ht r.2 (names.map fun name => ⟨.GET, [name]⟩))
        (Escapes m)) ∧
    ∀ key a, htableSearch m ht key = .ok (some a) →
      (∀ names, names ≠ [] → a.type = .HASH_T → Ensures (interpret m ht ⟨.HMGET, key :: names⟩)
        (fun r => ShowsReads m ht r.2 (names.map fun name => ⟨.HGET, [key, name]⟩)) (Escapes m)) ∧
      (∀ tmp, a.value = .hash tmp → tmp.used = tmp.entries.length → ShowsHash m ht key (fields tmp)) ∧
      (∀ st, a.value = .set st → ∃ reply, interpret m ht ⟨.SMEMBERS, [key]⟩ = .ok (ht, reply) ∧
        ShowsStrings reply (setMembers st)) ∧
      ∀ vals, ListAt m ht key vals → vals.length ≤ 2 ^ 31 →
        (∀ r, interpret m ht ⟨.LPOP, [key]⟩ = .ok r → r.2 = replyString vals.head?) ∧
        ∀ (bgn end_ : Bytes) (b e : ℕ), isNumber bgn = true → isNumber end_ = true →
          normId vals.length (strtoi bgn) = b → normId vals.length (strtoi end_) = e → b ≤ e → e < vals.length →
          ∃ reply, interpret m ht ⟨.LRANGE, [key, bgn, end_]⟩ = .ok (ht, reply) ∧
            ShowsReads m ht reply ((List.range' b (e + 1 - b)).map fun i : ℕ => ⟨.LINDEX, [key, intostr i]⟩) := by
  refine ⟨fun names hne htypes => (mget_gathers h.sound hne htypes).shows, fun key a hsearch => ?_⟩
  have htag : Holds m a.type a.value := h.sound.items a (h.sound.keyed.search_iff.mp hsearch).1
  refine ⟨?_, ?_, ?_, ?_⟩
  · exact fun names hne htype => (hmget_gathers h.sound hne hsearch htype).shows
  · intro tmp hv hcount
    obtain ⟨htype, htmp⟩ := (hv ▸ htag).of_hash
    exact (enumerates_of_counted htmp hsearch hv hcount).shows hsearch htype
  · exact fun st hv => smembers_shows hsearch hv (hv ▸ htag).of_set.1
  · rintro vals ⟨ls, hlist, hvals⟩ hlen
    cases hsearch.symm.trans hlist
    obtain ⟨-, cells, hrep, hne⟩ := htag.of_list
    obtain rfl : cells.map Prod.snd = vals := Except.ok.inj (hrep.contents.symm.trans hvals)
    rw [List.length_map] at hlen ⊢
    refine ⟨fun r hpop => lpop_replies hlist hrep hne hpop, fun bgn end_ b e hbgn hend => ?_⟩
    exact lrange_shows hlist hrep hlen hbgn hend

end Shown
end MemKey
