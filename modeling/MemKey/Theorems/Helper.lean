import MemKey.Helper
import MemKey.Lib.Outcome
import Mathlib.NumberTheory.Bertrand
import Mathlib.NumberTheory.LucasLehmer

/-! Facts about `helper.c` that the tables rest on: a table size is a number of slots that fits an `int`,
    and without overflow every probe stays in the table. -/

namespace MemKey

/-! ### Wrapped arithmetic -/

theorem wrap32_lt (x : Int) : wrap32 x < 2 ^ 31 := by
  have := Int.bmod_lt (x := x) (m := 2 ^ 32) (by norm_num)
  norm_num at this ⊢
  exact this

theorem wrap32_eq {x : Int} (h₁ : -2 ^ 31 ≤ x) (h₂ : x < 2 ^ 31) : wrap32 x = x := by
  unfold wrap32
  rw [Int.bmod_eq_of_le] <;> norm_num at h₁ h₂ ⊢ <;> omega

theorem checked_eq_some {x y : Int} : checked x = some y ↔ FitsInt x ∧ y = x := by
  unfold checked
  rw [Option.ite_none_right_eq_some, Option.some.injEq, eq_comm (a := y)]

theorem checked_of_fits {x : Int} (h : FitsInt x) : checked x = some x := checked_eq_some.mpr ⟨h, rfl⟩

theorem wrap32_le {x : Int} (h : 0 ≤ x) : wrap32 x ≤ x := by
  unfold wrap32
  rw [Int.bmod_def]
  norm_num
  split <;> omega

theorem IntMode.int_le (m : IntMode) {x : Int} (h : 0 ≤ x) : m.int x ≤ x := by
  cases m
  · exact Int.le_refl x
  · exact wrap32_le h

theorem IntMode.int_lt {m : IntMode} (x : Int) (hm : m = .wrap) : m.int x < 2 ^ 31 := by
  subst hm
  exact wrap32_lt x

/-! ### Primes -/

/-- The loop of `is_prime` finds the odd divisors from `i` up to the square root, if it has enough rounds. -/
theorem isPrime.loop_iff {p i fuel : ℕ} (hi : 2 ≤ i) (hodd : i % 2 = 1) (hfuel : p < i + fuel) :
    isPrime.loop p i fuel = true ↔ ∀ d, i ≤ d → d % 2 = 1 → d * d ≤ p → ¬d ∣ p := by
  induction fuel generalizing i with
  | zero =>
    refine iff_of_true rfl fun d hd _ hle => ?_
    have := Nat.le_mul_self d
    omega
  | succ fuel ih =>
    unfold loop
    by_cases hle : i * i ≤ p
    · rw [if_pos hle]
      by_cases hmod : p % i = 0
      · rw [if_pos hmod]
        refine iff_of_false Bool.false_ne_true fun h => ?_
        exact h i (Nat.le_refl i) hodd hle (Nat.dvd_of_mod_eq_zero hmod)
      · rw [if_neg hmod, ih (by omega) (by omega) (by omega)]
        constructor
        · intro h d hd hdodd hdd hdvd
          rcases Nat.eq_or_lt_of_le hd with rfl | hlt
          · exact hmod (Nat.mod_eq_zero_of_dvd hdvd)
          · exact h d (by omega) hdodd hdd hdvd
        · exact fun h d hd => h d (by omega)
    · rw [if_neg hle]
      refine iff_of_true rfl fun d hd _ hdd => ?_
      have := Nat.mul_le_mul hd hd
      omega

theorem isPrime_iff (x : Int) : isPrime x = true ↔ x.toNat.Prime := by
  unfold isPrime
  by_cases h2 : x < 2
  · rw [if_pos h2]
    refine iff_of_false Bool.false_ne_true fun hp => ?_
    have := hp.two_le
    omega
  rw [if_neg h2]
  by_cases heq : x = 2
  · subst heq
    exact iff_of_true rfl Nat.prime_two
  rw [if_neg heq]
  by_cases heven : x % 2 = 0
  · rw [if_pos heven]
    refine iff_of_false Bool.false_ne_true fun hp => ?_
    have := (Nat.prime_dvd_prime_iff_eq Nat.prime_two hp).mp (Nat.dvd_of_mod_eq_zero (by omega))
    omega
  · rw [if_neg heven, isPrime.loop_iff (by omega) rfl (by omega), Nat.prime_def_le_sqrt]
    constructor
    · refine fun h => ⟨by omega, fun d hd hsqrt hdvd => ?_⟩
      -- A divisor of an odd number is odd.
      have hodd : d % 2 = 1 := by
        rcases Nat.mod_two_eq_zero_or_one d with h0 | h1
        · have := Nat.mod_eq_zero_of_dvd ((Nat.dvd_of_mod_eq_zero h0).trans hdvd)
          omega
        · exact h1
      exact h d (by omega) hodd (Nat.le_sqrt.mp hsqrt) hdvd
    · exact fun h d hd _ hdd => h.2 d (by omega) (Nat.le_sqrt.mpr hdd)

/-- The search of `next_prime` from `x` on takes `k` rounds. -/
def StopsAfter (x : Int) (k : ℕ) : Prop := isPrime (x + k) = true ∧ ∀ j < k, isPrime (x + j) = false

/-- The search stops at a prime, if there is one within its rounds. -/
theorem nextPrime.loop_stops {p : ℕ} (hp : p.Prime) {x : Int} {fuel : ℕ} (hx : x ≤ p) (hfuel : p < x + fuel) :
    ∃ k, StopsAfter x k ∧ nextPrime.loop x fuel = x + k := by
  induction fuel generalizing x with
  | zero =>
    rw [Nat.cast_zero, Int.add_zero] at hfuel
    exact absurd hfuel (by omega)
  | succ fuel ih =>
    unfold loop
    by_cases hprime : isPrime x = true
    · rw [if_pos hprime]
      exact ⟨0, ⟨by simpa using hprime, fun j hj => by omega⟩, by simp⟩
    · rw [if_neg hprime]
      have hne : x ≠ p := fun heq => hprime ((isPrime_iff x).mpr (by simpa [heq] using hp))
      obtain ⟨k, ⟨hk, hbefore⟩, hloop⟩ := ih (x := x + 1) (by omega) (by push_cast at hfuel; omega)
      refine ⟨k + 1, ⟨by rw [Nat.cast_add, Nat.cast_one, Int.add_comm (k : Int), ← Int.add_assoc]; exact hk, ?_⟩, ?_⟩
      · intro j hj
        cases j with
        | zero => simpa using hprime
        | succ j =>
          rw [Nat.cast_add, Nat.cast_one, Int.add_comm (j : Int), ← Int.add_assoc]
          exact hbefore j (by omega)
      · rw [hloop]
        push_cast
        omega

/-- There is a prime between a number and its double, so that the search stops. -/
theorem nextPrime_stops {x : Int} (hx : 2 ≤ x) : ∃ k, StopsAfter x k ∧ nextPrime x = x + k := by
  obtain ⟨n, rfl⟩ := Int.eq_ofNat_of_zero_le (show 0 ≤ x by omega)
  have hn : 2 ≤ n := by omega
  obtain ⟨p, hp, hlt, hle⟩ := Nat.exists_prime_lt_and_le_two_mul n (by omega)
  have hne : p ≠ 2 * n := fun heq => Nat.not_prime_mul (by decide) (by omega) (heq ▸ hp)
  rw [nextPrime, if_neg (by omega), Int.toNat_natCast]
  exact nextPrime.loop_stops hp (by omega) (by omega)

/-- `next_prime` returns the least prime from its argument on. -/
theorem nextPrime_isLeast (x : Int) : IsLeast {p : Int | p.toNat.Prime ∧ x ≤ p ∧ 2 ≤ p} (nextPrime x) := by
  by_cases hx : 2 ≤ x
  · obtain ⟨k, ⟨hk, hbefore⟩, heq⟩ := nextPrime_stops hx
    rw [heq]
    refine ⟨⟨(isPrime_iff _).mp hk, by omega, by omega⟩, ?_⟩
    rintro p ⟨hp, hxp, -⟩
    by_contra hlt
    have hfalse := hbefore (p - x).toNat (by omega)
    rw [show x + ((p - x).toNat : Int) = p by omega, (isPrime_iff p).mpr hp] at hfalse
    cases hfalse
  · rw [nextPrime, if_pos (by omega)]
    exact ⟨⟨Nat.prime_two, by omega, by omega⟩, fun p hp => hp.2.2⟩

theorem le_nextPrime (x : Int) : x ≤ nextPrime x := (nextPrime_isLeast x).1.2.1

theorem two_le_nextPrime (x : Int) : 2 ≤ nextPrime x := (nextPrime_isLeast x).1.2.2

/-- The largest `int` is a prime, so that the search ends inside the range of `int`. -/
theorem prime_intMax : Nat.Prime (2 ^ 31 - 1) :=
  lucas_lehmer_sufficiency 31 (by norm_num) (by norm_num)

theorem nextPrime_lt {x : Int} (h : x < 2 ^ 31) : nextPrime x < 2 ^ 31 := by
  have hmem : (2 ^ 31 - 1 : Int) ∈ {p : Int | p.toNat.Prime ∧ x ≤ p ∧ 2 ≤ p} :=
    ⟨prime_intMax, by omega, by norm_num⟩
  have hle := (nextPrime_isLeast x).2 hmem
  omega

/-- `is_prime` tells the primes and is given enough rounds, and `next_prime` of an `int` stops, inside the range
    of `int`, at the least prime from its argument on. -/
theorem next_prime_correct {x : Int} (hx : x < 2 ^ 31) :
    (isPrime x = true ↔ x.toNat.Prime) ∧
    (∀ n, isPrime.loop x.toNat 3 (x.toNat + n) = isPrime.loop x.toNat 3 x.toNat) ∧
    IsLeast {p : Int | p.toNat.Prime ∧ x ≤ p ∧ 2 ≤ p} (nextPrime x) ∧ nextPrime x < 2 ^ 31 ∧
    (2 ≤ x → ∃ k, StopsAfter x k ∧ nextPrime x = x + k) := by
  refine ⟨isPrime_iff x, fun n => ?_, nextPrime_isLeast x, nextPrime_lt hx, nextPrime_stops⟩
  rw [Bool.eq_iff_iff, isPrime.loop_iff (by decide) rfl (by omega), isPrime.loop_iff (by decide) rfl (by omega)]

/-- The search from the largest `int` stops at once. -/
theorem next_prime_correct_max : nextPrime (2 ^ 31 - 1) < 2 ^ 31 := (next_prime_correct (by norm_num)).2.2.2.1

/-! ### Probes -/

/-- Without overflow, probe `i` looks at slot `(djb2 + i * sdbm) mod size`. -/
theorem hashFunc_exact (key : Bytes) (size i : ℕ) :
    hashFunc .exact key size i = ((djb2 key size + i * sdbm key size) % size : ℕ) := by
  unfold hashFunc
  by_cases hi : i = 0
  · subst hi
    simp [Int.tmod_eq_emod_of_nonneg]
  · simp only [hi, if_false, IntMode.int]
    rw [Int.tmod_eq_emod_of_nonneg (by positivity)]
    norm_cast

theorem probePath_eq_some {m : IntMode} {key : Bytes} {size i ix : ℕ} :
    probePath m size key i = some ix ↔ hashFunc m key size i = ix := by
  unfold probePath
  dsimp only
  split
  · rw [Option.some.injEq]
    omega
  · simp only [reduceCtorEq, false_iff]
    omega

theorem probePath_exact (key : Bytes) (size i : ℕ) :
    probePath .exact size key i = some ((djb2 key size + i * sdbm key size) % size) := by
  unfold probePath
  rw [hashFunc_exact, if_pos (by positivity), Int.toNat_natCast]

end MemKey
