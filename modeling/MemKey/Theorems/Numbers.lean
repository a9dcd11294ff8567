import MemKey.Theorems.Helper

/-! Numbers as text: what `strtoi` reads and `intostr` writes, with `int` arithmetic as the built program wraps it
    and as far as C defines it. -/

namespace MemKey

theorem FitsInt.wrap {x : Int} (h : FitsInt x) : wrap32 x = x := wrap32_eq h.1 h.2

theorem wrap32_add (a b : Int) : wrap32 (wrap32 a + b) = wrap32 (a + b) := Int.bmod_add_bmod

theorem wrap32_mul (a b : Int) : wrap32 (wrap32 a * b) = wrap32 (a * b) := Int.bmod_mul_bmod

theorem le_wrap32 (x : Int) : -2 ^ 31 ≤ wrap32 x := by
  have := Int.le_bmod (x := x) (m := 2 ^ 32) (by norm_num)
  norm_num at this ⊢
  exact this

theorem isDigit_toInt8 {c : UInt8} (hc : Decimal.isDigit c = true) : c.toInt8.toInt = c.toNat := by
  have hdig := Decimal.isDigit_iff.mp hc
  refine BitVec.toInt_eq_toNat_of_lt ?_
  change 2 * c.toNat < 2 ^ 8
  omega

/-- The round of a digit on the wrapped number is the round on the number itself, wrapped. -/
theorem strtoiStep_digit {c : UInt8} (hc : Decimal.isDigit c = true) (v : ℕ) :
    strtoiStep (wrap32 v) c = wrap32 (v * 10 + (c.toNat - 48) : ℕ) := by
  have hdig := Decimal.isDigit_iff.mp hc
  rw [strtoiStep, wrap32_mul, wrap32_add, isDigit_toInt8 hc]
  congr 1
  omega

theorem strtoi_fold {s : Bytes} (hs : ∀ c ∈ s, Decimal.isDigit c = true) (v : ℕ) :
    s.foldl strtoiStep (wrap32 v) = wrap32 (Decimal.value v s) := by
  induction s generalizing v with
  | nil => rw [List.foldl_nil, Decimal.value, List.foldl_nil]
  | cons c s ih =>
    rw [List.foldl_cons, strtoiStep_digit (hs c (by simp)), ih (fun d hd => hs d (by simp [hd])), Decimal.value_cons]

theorem strtoi_minus {s : Bytes} (hs : ∀ c ∈ s, Decimal.isDigit c = true) :
    strtoi (Decimal.minus :: s) = wrap32 (-Decimal.value 0 s) := by
  have hfold := strtoi_fold hs 0
  rw [show wrap32 (0 : ℕ) = 0 from rfl] at hfold
  rw [strtoi, if_pos rfl, hfold, wrap32_mul]
  congr 1
  omega

theorem strtoi_digits {c : UInt8} {s : Bytes} (hc : c ≠ Decimal.minus)
    (hs : ∀ d ∈ c :: s, Decimal.isDigit d = true) : strtoi (c :: s) = wrap32 (Decimal.value 0 (c :: s)) := by
  have hfold := strtoi_fold hs 0
  rw [show wrap32 (0 : ℕ) = 0 from rfl] at hfold
  rw [strtoi, if_neg hc, hfold]

theorem strtoi_intostr {x : Int} (h₁ : -2 ^ 31 ≤ x) (h₂ : x < 2 ^ 31) : strtoi (intostr x) = x := by
  have hdigits := Decimal.nat_digits x.natAbs
  have hvalue := Decimal.value_nat x.natAbs
  unfold intostr Decimal.int
  split
  · rw [strtoi_minus hdigits, hvalue, show -(x.natAbs : Int) = x by omega, wrap32_eq h₁ h₂]
  · cases hn : Decimal.nat x.natAbs with
    | nil => exact absurd hn (Decimal.nat_ne_nil _)
    | cons c s =>
      rw [hn] at hdigits hvalue
      rw [strtoi_digits (Decimal.head_nat_ne_minus hn) hdigits, hvalue, show (x.natAbs : Int) = x by omega,
        wrap32_eq h₁ h₂]

theorem strtoi_readInt {s : Bytes} {x : Int} (h : Decimal.readInt s = some x) :
    isNumber s = true ∧ strtoi s = wrap32 x := by
  cases s with
  | nil => cases h
  | cons c s =>
    rw [Decimal.readInt] at h
    by_cases hc : c = Decimal.minus
    · rw [if_pos hc, Option.ite_none_right_eq_some] at h
      obtain ⟨⟨-, hs⟩, hx⟩ := h
      rw [hc, strtoi_minus (List.all_eq_true.mp hs), Option.some.inj hx]
      exact ⟨hs, rfl⟩
    · rw [if_neg hc, Option.ite_none_right_eq_some] at h
      obtain ⟨hs, hx⟩ := h
      rw [strtoi_digits hc (List.all_eq_true.mp hs), Option.some.inj hx]
      exact ⟨by rw [isNumber, if_neg hc, hs], rfl⟩

theorem strtoi_range (s : Bytes) : -2 ^ 31 ≤ strtoi s ∧ strtoi s < 2 ^ 31 := by
  have hfold (l : Bytes) (acc : Int) (hacc : -2 ^ 31 ≤ acc ∧ acc < 2 ^ 31) :
      -2 ^ 31 ≤ l.foldl strtoiStep acc ∧ l.foldl strtoiStep acc < 2 ^ 31 := by
    induction l generalizing acc with
    | nil => exact hacc
    | cons c l ih => exact ih _ ⟨le_wrap32 _, wrap32_lt _⟩
  unfold strtoi
  split
  · norm_num
  · split
    · exact ⟨le_wrap32 _, wrap32_lt _⟩
    · exact hfold _ 0 (by norm_num)

theorem intostr_strtoi_iff {s : Bytes} :
    intostr (strtoi s) = s ↔ ∃ x : Int, -2 ^ 31 ≤ x ∧ x < 2 ^ 31 ∧ s = intostr x := by
  constructor
  · intro h
    exact ⟨strtoi s, (strtoi_range s).1, (strtoi_range s).2, h.symm⟩
  · rintro ⟨x, h₁, h₂, rfl⟩
    rw [strtoi_intostr h₁ h₂]

/-! ### The defined part of `strtoi` -/

theorem checked_bind_eq_some {x y : Int} {f : Int → Option Int} :
    (checked x >>= f) = some y ↔ FitsInt x ∧ f x = some y := by
  rw [checked]
  split <;> simp [*]

theorem strtoiCheckedStep_eq_some {c : UInt8} (hc : Decimal.isDigit c = true) (v : ℕ) {x : Int} :
    strtoiCheckedStep v c = some x ↔ x = (v * 10 + (c.toNat - 48) : ℕ) ∧ x < 2 ^ 31 := by
  have hdig := Decimal.isDigit_iff.mp hc
  rw [strtoiCheckedStep, checked_bind_eq_some, checked_eq_some, isDigit_toInt8 hc]
  unfold FitsInt
  omega

/-- The digits are read without an overflow exactly if the number that they denote is below `2 ^ 31`. -/
theorem strtoiChecked_fold {s : Bytes} (hs : ∀ c ∈ s, Decimal.isDigit c = true) {v : ℕ} (hv : v < 2 ^ 31) {x : Int} :
    s.foldlM strtoiCheckedStep (v : Int) = some x ↔ x = Decimal.value v s ∧ x < 2 ^ 31 := by
  induction s generalizing v with
  | nil =>
    rw [List.foldlM_nil, Decimal.value, List.foldl_nil]
    change some (v : Int) = some x ↔ _
    rw [Option.some.injEq]
    omega
  | cons c s ih =>
    have hle := Decimal.le_value (v * 10 + (c.toNat - 48)) s
    rw [List.foldlM_cons, Option.bind_eq_bind, Option.bind_eq_some_iff, Decimal.value_cons]
    constructor
    · rintro ⟨y, hstep, hrest⟩
      obtain ⟨rfl, hlt⟩ := (strtoiCheckedStep_eq_some (hs c (by simp)) v).mp hstep
      exact (ih (fun d hd => hs d (by simp [hd])) (by omega)).mp hrest
    · rintro ⟨hx, hlt⟩
      have hstep : v * 10 + (c.toNat - 48) < 2 ^ 31 := by omega
      refine ⟨_, (strtoiCheckedStep_eq_some (hs c (by simp)) v).mpr ⟨rfl, by omega⟩, ?_⟩
      exact (ih (fun d hd => hs d (by simp [hd])) hstep).mpr ⟨hx, hlt⟩

/-- `strtoi` reads an integer without an overflow exactly if it is above the least `int`, whose digits pass the
    greatest. -/
theorem strtoiChecked_readInt {s : Bytes} {v x : Int} (h : Decimal.readInt s = some v) :
    strtoiChecked s = some x ↔ x = v ∧ -2 ^ 31 < v ∧ v < 2 ^ 31 := by
  cases s with
  | nil => cases h
  | cons c s =>
    rw [Decimal.readInt] at h
    by_cases hc : c = Decimal.minus
    · rw [if_pos hc, Option.ite_none_right_eq_some, Option.some.injEq] at h
      obtain ⟨⟨-, hs⟩, rfl⟩ := h
      have hfold {y : Int} := strtoiChecked_fold (List.all_eq_true.mp hs) (v := 0) (by decide) (x := y)
      rw [strtoiChecked, if_pos hc, Option.bind_eq_bind, Option.bind_eq_some_iff]
      constructor
      · rintro ⟨y, hy, hx⟩
        obtain ⟨rfl, hlt⟩ := hfold.mp hy
        obtain ⟨-, rfl⟩ := checked_eq_some.mp hx
        omega
      · rintro ⟨rfl, hlt, -⟩
        exact ⟨_, hfold.mpr ⟨rfl, by omega⟩, checked_eq_some.mpr ⟨by unfold FitsInt; omega, by omega⟩⟩
    · rw [if_neg hc, Option.ite_none_right_eq_some, Option.some.injEq] at h
      obtain ⟨hs, rfl⟩ := h
      have hfold := strtoiChecked_fold (List.all_eq_true.mp hs) (v := 0) (by decide) (x := x)
      rw [strtoiChecked, if_neg hc]
      refine hfold.trans ?_
      omega

/-! ### The number of digits -/

theorem ndigits.loop_eq (n : ℕ) (res : Int) {fuel : ℕ} (hfuel : n ≤ fuel) :
    ndigits.loop n res fuel = res + (Nat.digits 10 n).length := by
  induction fuel generalizing n res with
  | zero =>
    obtain rfl : n = 0 := by omega
    simp [loop]
  | succ fuel ih =>
    unfold loop
    by_cases hn : n = 0
    · simp [hn]
    · rw [if_pos (by omega), show (n : Int) / 10 = (n / 10 : ℕ) by omega, ih (n / 10) (res + 1) (by omega),
        Nat.digits_def' (by decide) (Nat.pos_of_ne_zero hn), List.length_cons]
      push_cast
      omega

/-- `ndigits` counts the digits, but none in 0, and sees no digit in the least `int`, whose negation wraps. -/
theorem ndigits_eq {x : Int} (hx : x ≠ -2 ^ 31) (hlo : -2 ^ 31 ≤ x) : ndigits x = (Nat.digits 10 x.natAbs).length := by
  have habs : (if x < 0 then wrap32 (x * -1) else x) = x.natAbs := by
    split
    · rw [wrap32_eq (by omega) (by omega)]
      omega
    · omega
  rw [ndigits, habs, ndigits.loop_eq _ 0 (by omega), Int.zero_add]

theorem ndigits_min : ndigits (-2 ^ 31) = 0 := by decide

/-- The text of a number takes at most one byte more than it has digits, for the sign or for the digit of 0. -/
theorem length_intostr_le {x : Int} (hx : x ≠ -2 ^ 31) (hlo : -2 ^ 31 ≤ x) : (intostr x).length ≤ ndigits x + 1 := by
  rw [ndigits_eq hx hlo]
  unfold intostr Decimal.int
  by_cases hneg : x < 0
  · rw [if_pos hneg, List.length_cons, Decimal.length_nat (by omega)]
    push_cast
    exact Int.le_refl _
  · rw [if_neg hneg]
    by_cases hzero : x = 0
    · subst hzero
      decide
    · rw [Decimal.length_nat (by omega)]
      omega

theorem length_intostr_le_iff {x : Int} (hx : FitsInt x) : (intostr x).length ≤ ndigits x + 1 ↔ x ≠ -2 ^ 31 := by
  refine ⟨?_, fun hne => length_intostr_le hne hx.1⟩
  rintro hle rfl
  rw [ndigits_min] at hle
  exact absurd hle (by decide +kernel)

/-! ### Round trips -/

/-- `strtoi` reads what `intostr` writes, and `intostr` writes what `strtoi` reads from a canonical text. -/
theorem text_round_trip : (∀ x, FitsInt x → isNumber (intostr x) = true ∧ strtoi (intostr x) = x) ∧
    ∀ s x, Decimal.CanonicalInt s → Decimal.readInt s = some x → FitsInt x → intostr (strtoi s) = s := by
  refine ⟨fun x hx => ⟨(strtoi_readInt (Decimal.readInt_int x)).1, strtoi_intostr hx.1 hx.2⟩, ?_⟩
  intro s x hs hread hx
  obtain ⟨y, rfl⟩ := Decimal.canonicalInt_iff.mp hs
  obtain rfl : y = x := Option.some.inj ((Decimal.readInt_int y).symm.trans hread)
  exact congrArg intostr (strtoi_intostr hx.1 hx.2)

/-- The least `int`, whose digits pass the greatest. -/
theorem text_round_trip_min : strtoi (intostr (-2 ^ 31)) = -2 ^ 31 ∧
    intostr (strtoi (str "-2147483648")) = str "-2147483648" := by
  have hs : Decimal.CanonicalInt (str "-2147483648") := Decimal.canonicalInt_iff.mpr ⟨-2 ^ 31, by decide +kernel⟩
  exact ⟨(text_round_trip.1 _ (by decide)).2, text_round_trip.2 _ (-2 ^ 31) hs (by decide) (by decide)⟩

end MemKey
