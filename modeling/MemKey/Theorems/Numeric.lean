import MemKey.Theorems.Counter

/-! When a counter command on a string is exact or refuses. `is_number` lets through texts that denote no `int`,
    and `strtoi` and the sum wrap around: a command that meets such a number replies as if all were well. -/

namespace MemKey
open Outcome Decimal

namespace CounterOp

/-- The texts that the command reads, the stored one first. -/
def operands (s : Bytes) : CounterOp → List Bytes
  | incr | decr => [s]
  | incrby arg | decrby arg => [s, arg]

/-- The command's sum or difference, over what `read` makes of each text. -/
def combine (read : Bytes → Option Int) (s : Bytes) : CounterOp → Option Int
  | incr => do some ((← read s) + 1)
  | decr => do some ((← read s) + -1)
  | incrby arg => do some ((← read s) + (← read arg))
  | decrby arg => do some ((← read s) - (← read arg))

/-- The exact result, if each operand denotes an `int` and the result is one. -/
def exactResult (s : Bytes) (op : CounterOp) : Option Int := do
  checked (← op.combine (fun t => do checked (← readInt t)) s)

/-- The result as far as C defines it. -/
def definedResult (s : Bytes) (op : CounterOp) : Option Int := do checked (← op.combine strtoiChecked s)

end CounterOp

/-- The command on a key that holds `s` stores and replies the exact result, or refuses and changes nothing if there
    is none; where it reads numbers no `int` overflows. -/
structure ExactOrRefuses (m : IntMode) (ht : Keyspace) (key s : Bytes) (op : CounterOp) : Prop where
  exact : ∀ x, op.exactResult s = some x → ∃ ht', interpret m ht (op.command key) = .ok (ht', replyInteger x) ∧
    htableGet m ht' key = .ok (some (intostr x))
  refuses : op.exactResult s = none → interpret m ht (op.command key) = .ok (ht, replyErrIntid)
  defined : (∀ t ∈ op.operands s, isNumber t = true) → ∃ x, op.definedResult s = some x

/-- `is_number` rejects an operand, or each denotes an integer above the least `int` and at most the greatest, and
    the result is an `int`. -/
def CounterOp.Safe (s : Bytes) (op : CounterOp) : Prop :=
  (∃ t ∈ op.operands s, isNumber t = false) ∨
  (∀ t ∈ op.operands s, ∃ v, readInt t = some v ∧ -2 ^ 31 < v ∧ v < 2 ^ 31) ∧
    ∃ x, op.combine readInt s = some x ∧ FitsInt x

section Numeric
variable {m : IntMode} {ht : Keyspace} {key s arg : Bytes} {op : CounterOp} {x : Int}

namespace CounterOp

theorem combine_congr {read read' : Bytes → Option Int} (h : ∀ t ∈ op.operands s, read t = read' t) :
    op.combine read s = op.combine read' s := by
  cases op with
  | incr | decr => simp only [combine, h s (by simp [operands])]
  | incrby arg | decrby arg => simp only [combine, h s (by simp [operands]), h arg (by simp [operands])]

theorem combine_none {read : Bytes → Option Int} {t : Bytes} (ht : t ∈ op.operands s) (h : read t = none) :
    op.combine read s = none := by
  cases op with
  | incr | decr =>
    obtain rfl := List.mem_singleton.mp ht
    rw [combine, h]
    rfl
  | incrby arg | decrby arg =>
    rcases List.mem_cons.mp ht with rfl | ht
    · rw [combine, h]
      rfl
    · obtain rfl := List.mem_singleton.mp ht
      rw [combine, h]
      cases read s <;> rfl

end CounterOp

/-! ### What the commands compute -/

/-- On numbers a command stores the wrapped result of what `strtoi` reads. -/
theorem CounterOp.interpret_numbers (hsearch : htableSearch m ht key = .ok (some ⟨.STR_T, key, .str s⟩))
    (hnum : ∀ t ∈ op.operands s, isNumber t = true) :
    ∃ x, op.combine (fun t => some (strtoi t)) s = some x ∧
      interpret m ht (op.command key) = storeNumber m ht key (wrap32 x) := by
  have hs : isNumber s = true := hnum s (by cases op <;> simp [operands])
  cases op with
  | incr => exact ⟨_, rfl, (execStep_number hsearch .INCR 1).trans (if_pos hs)⟩
  | decr => exact ⟨_, rfl, (execStep_number hsearch .DECR (-1)).trans (if_pos hs)⟩
  | incrby arg =>
    have harg : isNumber arg = true := hnum arg (by simp [operands])
    exact ⟨_, rfl, (execStepBy_number hsearch .INCRBY (· + ·)).trans (if_pos (by simp [hs, harg]))⟩
  | decrby arg =>
    have harg : isNumber arg = true := hnum arg (by simp [operands])
    exact ⟨_, rfl, (execStepBy_number hsearch .DECRBY (· - ·)).trans (if_pos (by simp [hs, harg]))⟩

theorem CounterOp.interpret_refuses (hsearch : htableSearch m ht key = .ok (some ⟨.STR_T, key, .str s⟩))
    (hnum : ∃ t ∈ op.operands s, isNumber t = false) :
    interpret m ht (op.command key) = .ok (ht, replyErrIntid) := by
  obtain ⟨t, hmem, ht'⟩ := hnum
  have hpair (arg : Bytes) (hmem : t ∈ [s, arg]) : (isNumber s && isNumber arg) = false := by
    rcases List.mem_cons.mp hmem with rfl | hmem
    · rw [ht', Bool.false_and]
    · obtain rfl := List.mem_singleton.mp hmem
      rw [ht', Bool.and_false]
  cases op with
  | incr =>
    obtain rfl := List.mem_singleton.mp hmem
    exact (execStep_number hsearch .INCR 1).trans (if_neg (by simp [ht']))
  | decr =>
    obtain rfl := List.mem_singleton.mp hmem
    exact (execStep_number hsearch .DECR (-1)).trans (if_neg (by simp [ht']))
  | incrby arg => exact (execStepBy_number hsearch .INCRBY (· + ·)).trans (if_neg (by simp [hpair arg hmem]))
  | decrby arg => exact (execStepBy_number hsearch .DECRBY (· - ·)).trans (if_neg (by simp [hpair arg hmem]))

/-- The key is there, so that the write finds a slot. -/
theorem storeNumber_found (hk : Keyed m ht) {a : HashTableItem Value} (hsearch : htableSearch m ht key = .ok (some a))
    (x : Int) : ∃ ht', storeNumber m ht key x = .ok (ht', replyInteger x) ∧
      htableGet m ht' key = .ok (some (intostr x)) := by
  obtain ⟨ix, hfind⟩ := htableFind_of_search hsearch
  exact ⟨_, by rw [storeNumber, htableSet_some hfind]; rfl, get_text (hk.search_put hfind rfl) rfl⟩

theorem storeNumber_ne_refuses : storeNumber m ht key x ≠ .ok (ht, replyErrIntid) := by
  intro h
  have hreply := storeNumber_reply h
  simp [replyErrIntid, replyInteger, str] at hreply

/-! ### Exactness -/

theorem CounterOp.exactResult_none {t : Bytes} (hmem : t ∈ op.operands s) (h : readInt t = none) :
    op.exactResult s = none := by
  rw [exactResult, combine_none hmem (by rw [h]; rfl)]
  rfl

theorem readInt_of_not_number {t : Bytes} (h : isNumber t = false) : readInt t = none := by
  cases hread : readInt t with
  | none => rfl
  | some v => exact absurd (strtoi_readInt hread).1 (by simp [h])

theorem CounterOp.Safe.exactOrRefuses (hk : Keyed m ht)
    (hsearch : htableSearch m ht key = .ok (some ⟨.STR_T, key, .str s⟩)) (h : op.Safe s) :
    ExactOrRefuses m ht key s op := by
  rcases h with hnot | ⟨hread, x, hx, hfits⟩
  · obtain ⟨t, hmem, ht'⟩ := hnot
    have hnone : op.exactResult s = none := exactResult_none hmem (readInt_of_not_number ht')
    refine ⟨fun x hx => absurd (hnone.symm.trans hx) (by simp), fun _ => interpret_refuses hsearch ⟨t, hmem, ht'⟩, ?_⟩
    exact fun hnum => absurd (hnum t hmem) (by simp [ht'])
  · -- On such operands every reading is the exact one.
    have hchecked : ∀ t ∈ op.operands s, (do checked (← readInt t)) = readInt t := by
      intro t hmem
      obtain ⟨v, hv, hlo, hhi⟩ := hread t hmem
      rw [hv]
      exact checked_of_fits ⟨by omega, hhi⟩
    have hstrtoi : ∀ t ∈ op.operands s, some (strtoi t) = readInt t := by
      intro t hmem
      obtain ⟨v, hv, hlo, hhi⟩ := hread t hmem
      rw [hv, (strtoi_readInt hv).2, wrap32_eq (by omega) hhi]
    have hdefined : ∀ t ∈ op.operands s, strtoiChecked t = readInt t := by
      intro t hmem
      obtain ⟨v, hv, hrange⟩ := hread t hmem
      rw [hv]
      exact (strtoiChecked_readInt hv).mpr ⟨rfl, hrange⟩
    have hnum : ∀ t ∈ op.operands s, isNumber t = true := by
      intro t hmem
      obtain ⟨v, hv, -⟩ := hread t hmem
      exact (strtoi_readInt hv).1
    have hexact : op.exactResult s = some x := by
      rw [exactResult, combine_congr hchecked, hx]
      exact checked_of_fits hfits
    obtain ⟨y, hy, hrun⟩ := interpret_numbers hsearch hnum
    obtain rfl : x = y := Option.some.inj (hx.symm.trans ((combine_congr hstrtoi).symm.trans hy))
    rw [hfits.wrap] at hrun
    refine ⟨fun z hz => ?_, fun hnone => absurd (hexact.symm.trans hnone) (by simp), fun _ => ⟨x, ?_⟩⟩
    · obtain rfl := Option.some.inj (hexact.symm.trans hz)
      rw [hrun]
      exact storeNumber_found hk hsearch x
    · rw [definedResult, combine_congr hdefined, hx]
      exact checked_of_fits hfits

theorem ExactOrRefuses.safe (hsearch : htableSearch m ht key = .ok (some ⟨.STR_T, key, .str s⟩))
    (h : ExactOrRefuses m ht key s op) : op.Safe s := by
  by_cases hnum : ∀ t ∈ op.operands s, isNumber t = true
  · by_cases hread : ∀ t ∈ op.operands s, ∃ v, readInt t = some v
    · obtain ⟨x, hx⟩ := h.defined hnum
      obtain ⟨y, hy, hfits⟩ := Option.bind_eq_some_iff.mp hx
      have hrange : ∀ t ∈ op.operands s, ∃ v, readInt t = some v ∧ -2 ^ 31 < v ∧ v < 2 ^ 31 := by
        intro t hmem
        obtain ⟨v, hv⟩ := hread t hmem
        cases hdef : strtoiChecked t with
        | none => exact nomatch (CounterOp.combine_none hmem hdef).symm.trans hy
        | some w => exact ⟨v, hv, ((strtoiChecked_readInt hv).mp hdef).2⟩
      have hdefined : ∀ t ∈ op.operands s, strtoiChecked t = readInt t := by
        intro t hmem
        obtain ⟨v, hv, hrange⟩ := hrange t hmem
        rw [hv]
        exact (strtoiChecked_readInt hv).mpr ⟨rfl, hrange⟩
      rw [CounterOp.combine_congr hdefined] at hy
      exact .inr ⟨hrange, y, hy, (checked_eq_some.mp hfits).1⟩
    · -- A number that denotes no integer is read as 0 and not refused.
      push Not at hread
      obtain ⟨t, hmem, hnone⟩ := hread
      have hrefuses := h.refuses (CounterOp.exactResult_none hmem (Option.eq_none_iff_forall_ne_some.mpr hnone))
      obtain ⟨y, -, hrun⟩ := CounterOp.interpret_numbers hsearch hnum
      exact absurd (hrun.symm.trans hrefuses) storeNumber_ne_refuses
  · push Not at hnum
    obtain ⟨t, hmem, hnot⟩ := hnum
    exact .inl ⟨t, hmem, by simpa using hnot⟩

/-- A counter command on a string is exact or refuses exactly if `is_number` rejects one of its operands, or all
    are integers that `strtoi` reads without an overflow and the result is an `int`. -/
theorem numeric_commands_exact (h : Reachable m ht)
    (hsearch : htableSearch m ht key = .ok (some ⟨.STR_T, key, .str s⟩)) (op : CounterOp) :
    ExactOrRefuses m ht key s op ↔ op.Safe s :=
  ⟨ExactOrRefuses.safe hsearch, CounterOp.Safe.exactOrRefuses h.sound.keyed hsearch⟩

end Numeric

/-- `INCRBY a 5` after `SET a -7`. -/
theorem numeric_commands_exact_sum :
    ExactOrRefuses .wrap (oneString 0 (str "a") (str "-7")) (str "a") (str "-7") (.incrby (str "5")) := by
  have hreach : Reachable .wrap (oneString 0 (str "a") (str "-7")) :=
    .step .init trivial (show serve .wrap (htableInit htBaseSize) ⟨.SET, [str "a", str "-7"]⟩ = _ from rfl)
  refine (numeric_commands_exact hreach rfl _).mpr (.inr ⟨?_, -2, rfl, by decide⟩)
  intro t ht
  rcases List.mem_cons.mp ht with rfl | ht
  · exact ⟨-7, rfl, by decide⟩
  · obtain rfl := List.mem_singleton.mp ht
    exact ⟨5, rfl, by decide⟩

/-- `INCR a` after `SET a 2147483647` stores and replies the least `int`, and after `SET a` the number 1. -/
theorem incr_not_exact :
    (Reachable .wrap (oneString 0 (str "a") (str "2147483647")) ∧
      ∃ ht, interpret .wrap (oneString 0 (str "a") (str "2147483647")) ⟨.INCR, [str "a"]⟩ =
          .ok (ht, replyInteger (-2 ^ 31)) ∧
        ¬ExactOrRefuses .wrap (oneString 0 (str "a") (str "2147483647")) (str "a") (str "2147483647") .incr) ∧
    Reachable .wrap (oneString 0 (str "a") []) ∧
      ∃ ht, interpret .wrap (oneString 0 (str "a") []) ⟨.INCR, [str "a"]⟩ = .ok (ht, replyInteger 1) ∧
        ¬ExactOrRefuses .wrap (oneString 0 (str "a") []) (str "a") [] .incr := by
  have hset : serve .wrap (htableInit htBaseSize) ⟨.SET, [str "a", str "2147483647"]⟩ =
      .ok (oneString 0 (str "a") (str "2147483647")) := rfl
  have hempty : serve .wrap (htableInit htBaseSize) ⟨.SET, [str "a"]⟩ = .ok (oneString 0 (str "a") []) := rfl
  have hread : readInt (str "2147483647") = some 2147483647 := by decide
  have hsearch : htableSearch .wrap (oneString 0 (str "a") (str "2147483647")) (str "a") =
      .ok (some ⟨.STR_T, str "a", .str (str "2147483647")⟩) := rfl
  have hincr := execStep_text hsearch hread (by decide) .INCR 1
  rw [show wrap32 (2147483647 + 1) = -2 ^ 31 by decide] at hincr
  have hstore (x : Int) : storeNumber .wrap (oneString 0 (str "a") (str "2147483647")) (str "a") x =
      .ok (oneString 0 (str "a") (intostr x), replyInteger x) := rfl
  have hsearch : htableSearch .wrap (oneString 0 (str "a") []) (str "a") = .ok (some ⟨.STR_T, str "a", .str []⟩) := rfl
  have hone := execStep_number hsearch .INCR 1
  refine ⟨⟨.step .init trivial hset, _, hincr.trans (hstore _), fun h => ?_⟩, .step .init trivial hempty, _,
    hone.trans rfl, fun h => ?_⟩
  · have hrefuses := h.refuses (by decide)
    exact storeNumber_ne_refuses (hincr.symm.trans hrefuses)
  · have hrefuses := h.refuses (by decide)
    exact storeNumber_ne_refuses ((hone.trans (if_pos rfl)).symm.trans hrefuses)

end MemKey
