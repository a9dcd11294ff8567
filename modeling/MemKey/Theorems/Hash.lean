import MemKey.Theorems.Numbers

/-! The slots that `hash_func` computes. Its `int` product overflows for long probe sequences in large tables,
    and a wrapped product gives another slot or a negative one. -/

namespace MemKey

/-- The sizes that a table grows to, as long as the doubled size fits an `int`. -/
inductive GrownSize : ℕ → Prop
  | init : GrownSize (nextPrime 2).toNat
  | grow {size : ℕ} (h : GrownSize size) (hfits : FitsInt (size * 2)) : GrownSize (nextPrime (size * 2)).toNat

/-- The number that `hash_func` reduces, without overflow. -/
def probeSum (key : Bytes) (size i : ℕ) : ℕ := djb2 key size + i * sdbm key size

/-- No `int` operation of `hash_func` overflows, and its result is the slot of the probe, inside the table. -/
def SlotInBounds (key : Bytes) (size i : ℕ) : Prop :=
  ∃ slot : ℕ, hashFuncChecked key size i = some (slot : Int) ∧ hashFunc .wrap key size i = slot ∧
    slot = probeSum key size i % size ∧ slot < size

section Hash
variable {key : Bytes} {size i : ℕ}

theorem GrownSize.prime (h : GrownSize size) : size.Prime ∧ size < 2 ^ 31 := by
  have hnext {x : Int} (hx : x < 2 ^ 31) : (nextPrime x).toNat.Prime ∧ (nextPrime x).toNat < 2 ^ 31 := by
    have := nextPrime_lt hx
    exact ⟨(nextPrime_isLeast x).1.1, by omega⟩
  cases h with
  | init => exact hnext (by norm_num)
  | grow h hfits => exact hnext hfits.2

theorem djb2_lt (key : Bytes) (h : 0 < size) : djb2 key size < size := Nat.mod_lt _ h

theorem sdbm_lt (key : Bytes) (h : 0 < size) : sdbm key size < size := Nat.mod_lt _ h

theorem probeSum_lt (hi : i < size) : probeSum key size i < size * size := by
  have hpos : 0 < size := Nat.zero_lt_of_lt hi
  have hprod : i * sdbm key size ≤ (size - 1) * (size - 1) :=
    Nat.mul_le_mul (Nat.le_sub_one_of_lt hi) (Nat.le_sub_one_of_lt (sdbm_lt key hpos))
  have hdjb2 := djb2_lt key hpos
  obtain ⟨n, rfl⟩ := Nat.exists_eq_succ_of_ne_zero (Nat.pos_iff_ne_zero.mp hpos)
  simp only [probeSum, Nat.succ_eq_add_one, Nat.add_sub_cancel] at hprod hdjb2 ⊢
  nlinarith

/-- Tables of up to 46341 slots have no probe that overflows. -/
theorem probeSum_small (hsize : size ≤ 46341) (hi : i < size) : probeSum key size i < 2 ^ 31 := by
  have hpos : 0 < size := Nat.zero_lt_of_lt hi
  have hprod : i * sdbm key size ≤ 46340 * 46340 := by
    have := sdbm_lt key hpos
    exact Nat.mul_le_mul (by omega) (by omega)
  have hdjb2 := djb2_lt key hpos
  unfold probeSum
  omega

theorem hashFunc_zero (m : IntMode) : hashFunc m key size 0 = (probeSum key size 0 % size : ℕ) := by
  rw [hashFunc, if_pos rfl, probeSum, Nat.zero_mul, Nat.add_zero, Int.tmod_eq_emod_of_nonneg (by positivity)]
  norm_cast

theorem hashFunc_wrap (hi : i ≠ 0) : hashFunc .wrap key size i = (wrap32 (probeSum key size i)).tmod size := by
  have hsum : wrap32 (djb2 key size + wrap32 (i * sdbm key size)) = wrap32 (probeSum key size i) := by
    rw [Int.add_comm, wrap32_add, probeSum]
    push_cast
    rw [Int.add_comm]
  rw [hashFunc, if_neg hi]
  exact congrArg (Int.tmod · size) hsum

/-- A wrapped sum has another remainder: what was lost is `2 ^ 32 * k` with `0 < k < size`, which an odd prime does not
    divide. -/
theorem wrap32_tmod_ne (hp : size.Prime) (hs : size < 2 ^ 31) {n : ℕ} (hn : n < size * size) (hlarge : 2 ^ 31 ≤ n) :
    (wrap32 n).tmod size ≠ (n % size : ℕ) := by
  intro heq
  obtain ⟨k, hk⟩ : ((2 ^ 32 : ℕ) : Int) ∣ n - wrap32 n := Int.dvd_self_sub_bmod
  have hdvd : (size : Int) ∣ n - wrap32 n := by
    have h₁ : (size : Int) ∣ wrap32 n - (n % size : ℕ) := Int.dvd_self_sub_of_tmod_eq heq
    have h₂ : (size : Int) ∣ n - (n % size : ℕ) := by
      rw [Int.natCast_mod]
      exact Int.dvd_self_sub_emod
    have := Int.dvd_sub h₂ h₁
    rwa [sub_sub_sub_cancel_right] at this
  -- What was lost is `2 ^ 32 * k` with `0 < k < size`.
  have hlo := le_wrap32 n
  have hhi := wrap32_lt n
  have hsq : size * size < 2 ^ 31 * size := Nat.mul_lt_mul_of_pos_right hs hp.pos
  norm_num at hk hlo hhi hs hlarge
  have hkpos : 0 < k := by omega
  have hklt : k < size := by
    have : (n : Int) < 2147483648 * size := by exact_mod_cast hn.trans (by norm_num at hsq; exact hsq)
    omega
  have hcop : IsCoprime (size : Int) 4294967296 := by
    have h2 : size ≠ 2 := by
      rintro rfl
      omega
    have : Nat.Coprime size (2 ^ 32) := ((Nat.coprime_primes hp Nat.prime_two).mpr h2).pow_right 32
    exact_mod_cast Nat.isCoprime_iff_coprime.mpr this
  rw [hk] at hdvd
  have := Int.le_of_dvd hkpos (hcop.dvd_of_dvd_mul_left hdvd)
  omega

theorem hashFunc_wrap_iff (hp : size.Prime) (hs : size < 2 ^ 31) (hi : i < size) :
    hashFunc .wrap key size i = (probeSum key size i % size : ℕ) ↔ probeSum key size i < 2 ^ 31 := by
  by_cases hzero : i = 0
  · subst hzero
    refine iff_of_true (hashFunc_zero .wrap) ?_
    rw [probeSum, Nat.zero_mul, Nat.add_zero]
    exact (djb2_lt key hp.pos).trans hs
  · rw [hashFunc_wrap hzero]
    constructor
    · intro heq
      by_contra hlarge
      exact wrap32_tmod_ne hp hs (probeSum_lt hi) (Nat.not_lt.mp hlarge) heq
    · intro hlt
      rw [wrap32_eq (by omega) (by exact_mod_cast hlt), Int.tmod_eq_emod_of_nonneg (by positivity)]
      norm_cast

theorem hashFuncChecked_of_lt (hlt : probeSum key size i < 2 ^ 31) :
    hashFuncChecked key size i = some ((probeSum key size i % size : ℕ) : Int) := by
  have hres : (if i = 0 then some (djb2 key size : Int) else
      do checked (djb2 key size + (← checked (i * sdbm key size)))) = some (probeSum key size i : Int) := by
    by_cases hi : i = 0
    · rw [if_pos hi, hi, probeSum, Nat.zero_mul, Nat.add_zero]
    · unfold probeSum at hlt ⊢
      have hsum : FitsInt (djb2 key size + i * sdbm key size) := ⟨by omega, by exact_mod_cast hlt⟩
      have hprod : FitsInt (i * sdbm key size) := ⟨by omega, Int.lt_of_le_of_lt (by omega) hsum.2⟩
      rw [if_neg hi, checked_of_fits hprod, Option.bind_eq_bind, Option.bind_some, checked_of_fits hsum]
      push_cast
      rfl
  unfold hashFuncChecked
  dsimp only
  rw [hres, Option.map_some, Int.tmod_eq_emod_of_nonneg (by positivity)]
  norm_cast

/-- A probe is in bounds, and computed without overflow, exactly when its sum fits an `int`; already its result is
    wrong otherwise. In tables of up to 46341 slots every sum fits. -/
theorem slot_indices_in_bounds (hp : size.Prime) (hs : size < 2 ^ 31) (hi : i < size) :
    (SlotInBounds key size i ↔ probeSum key size i < 2 ^ 31) ∧
    (hashFunc .wrap key size i = (probeSum key size i % size : ℕ) ↔ probeSum key size i < 2 ^ 31) ∧
    (size ≤ 46341 → probeSum key size i < 2 ^ 31) := by
  have hwrap : hashFunc .wrap key size i = (probeSum key size i % size : ℕ) ↔ _ := hashFunc_wrap_iff hp hs hi
  refine ⟨⟨?_, fun hlt => ?_⟩, hwrap, fun hsize => probeSum_small hsize hi⟩
  · rintro ⟨slot, -, hslot, rfl, -⟩
    exact hwrap.mp hslot
  · exact ⟨_, hashFuncChecked_of_lt hlt, hwrap.mpr hlt, rfl, Nat.mod_lt _ hp.pos⟩

end Hash

theorem slot_indices_in_bounds_small : SlotInBounds (str "a") 5 4 :=
  (slot_indices_in_bounds (by norm_num) (by norm_num) (by norm_num)).1.mpr (by decide)

/-- A table grows to 51437 slots, and the last probe of `ba` in it is slot -28985. -/
theorem slot_index_negative : GrownSize 51437 ∧ hashFunc .wrap (str "ba") 51437 51436 = -28985 ∧
    hashFuncChecked (str "ba") 51437 51436 = none ∧ ¬SlotInBounds (str "ba") 51437 51436 := by
  have hchecked : hashFuncChecked (str "ba") 51437 51436 = none := by decide +kernel
  refine ⟨?_, by decide +kernel, hchecked, fun ⟨slot, h, _⟩ => nomatch hchecked.symm.trans h⟩
  have step {a b : ℕ} (h : GrownSize a) (hb : (nextPrime (a * 2)).toNat = b) (hfits : FitsInt (a * 2)) : GrownSize b :=
    hb ▸ h.grow hfits
  have h5 : GrownSize 5 := step .init (by decide +kernel) (by decide +kernel)
  have h97 : GrownSize 97 := by
    have h11 : GrownSize 11 := step h5 (by decide +kernel) (by decide)
    have h23 : GrownSize 23 := step h11 (by decide +kernel) (by decide)
    have h47 : GrownSize 47 := step h23 (by decide +kernel) (by decide)
    exact step h47 (by decide +kernel) (by decide)
  have h1597 : GrownSize 1597 := by
    have h197 : GrownSize 197 := step h97 (by decide +kernel) (by decide)
    have h397 : GrownSize 397 := step h197 (by decide +kernel) (by decide)
    have h797 : GrownSize 797 := step h397 (by decide +kernel) (by decide)
    exact step h797 (by decide +kernel) (by decide)
  have h12853 : GrownSize 12853 := by
    have h3203 : GrownSize 3203 := step h1597 (by decide +kernel) (by decide)
    have h6421 : GrownSize 6421 := step h3203 (by decide +kernel) (by decide)
    exact step h6421 (by decide +kernel) (by decide)
  have h25717 : GrownSize 25717 := step h12853 (by decide +kernel) (by decide)
  exact step h25717 (by decide +kernel) (by decide)

end MemKey
