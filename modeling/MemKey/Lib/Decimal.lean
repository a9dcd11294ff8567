import Mathlib.Data.Nat.Digits.Lemmas
import Mathlib.Data.List.Basic

/-! Decimal text in ASCII bytes, most significant digit first: the text of a number as `%d` prints it,
    the value that a run of digits denotes, and that the two undo each other. -/

namespace Decimal

def zero : UInt8 := 48
def minus : UInt8 := 45

def isDigit (b : UInt8) : Bool := 48 ≤ b && b ≤ 57

def digit (d : ℕ) : UInt8 := UInt8.ofNat (48 + d)

/-- The text of a natural number. -/
def nat (n : ℕ) : List UInt8 :=
  if n = 0 then [zero] else (Nat.digits 10 n).reverse.map digit

/-- The text of an integer, with a leading minus sign when it is negative. -/
def int (x : ℤ) : List UInt8 :=
  if x < 0 then minus :: nat x.natAbs else nat x.natAbs

/-- The number that a run of digits denotes after the digits of `acc`. -/
def value (acc : ℕ) (s : List UInt8) : ℕ := s.foldl (fun v b => v * 10 + (b.toNat - 48)) acc

/-! ### Digits -/

theorem isDigit_iff {b : UInt8} : isDigit b = true ↔ 48 ≤ b.toNat ∧ b.toNat ≤ 57 := by
  simp [isDigit, UInt8.le_iff_toNat_le]

theorem toNat_digit {d : ℕ} (h : d < 10) : (digit d).toNat = 48 + d := by
  simp [digit]
  omega

theorem isDigit_digit {d : ℕ} (h : d < 10) : isDigit (digit d) = true := by
  rw [isDigit_iff, toNat_digit h]
  omega

theorem digit_of_isDigit {b : UInt8} (h : isDigit b = true) : digit (b.toNat - 48) = b := by
  rw [isDigit_iff] at h
  apply UInt8.toNat_inj.mp
  rw [toNat_digit (by omega)]
  omega

theorem minus_not_digit : isDigit minus = false := rfl

/-! ### The text of a number -/

theorem nat_digits (n : ℕ) : ∀ b ∈ nat n, isDigit b = true := by
  intro b hb
  unfold nat at hb
  split at hb
  · simp only [List.mem_singleton] at hb
    subst hb
    rfl
  · simp only [List.mem_map, List.mem_reverse] at hb
    obtain ⟨d, hd, rfl⟩ := hb
    exact isDigit_digit (Nat.digits_lt_base (by omega) hd)

theorem nat_ne_nil (n : ℕ) : nat n ≠ [] := by
  unfold nat
  split
  · simp
  · simp [Nat.digits_eq_nil_iff_eq_zero, *]

theorem length_nat {n : ℕ} (h : n ≠ 0) : (nat n).length = (Nat.digits 10 n).length := by
  rw [nat, if_neg h, List.length_map, List.length_reverse]

theorem length_nat_le {n k : ℕ} (hk : 0 < k) (h : n < 10 ^ k) : (nat n).length ≤ k := by
  unfold nat
  split
  · exact hk
  · rw [List.length_map, List.length_reverse]
    exact (Nat.digits_length_le_iff (by omega) n).mpr h

theorem length_int_le {x : ℤ} {k : ℕ} (hk : 0 < k) (h : x.natAbs < 10 ^ k) : (int x).length ≤ k + 1 := by
  have hnat := length_nat_le hk h
  unfold int
  split
  · rw [List.length_cons]
    omega
  · omega

theorem head?_nat {n : ℕ} (h : n ≠ 0) : (nat n).head? ≠ some zero := by
  have hne : Nat.digits 10 n ≠ [] := by simpa [Nat.digits_eq_nil_iff_eq_zero] using h
  have hlast := Nat.getLast_digit_ne_zero 10 h
  have hlt : (Nat.digits 10 n).getLast hne < 10 := Nat.digits_lt_base (by omega) (List.getLast_mem hne)
  simp only [nat, h, if_false, List.head?_map, List.head?_reverse, List.getLast?_eq_getLast_of_ne_nil hne,
    Option.map_some, ne_eq, Option.some.injEq]
  intro heq
  have := congrArg UInt8.toNat heq
  rw [toNat_digit hlt] at this
  simp [zero] at this
  omega

theorem value_append (acc : ℕ) (s t : List UInt8) : value acc (s ++ t) = value (value acc s) t :=
  List.foldl_append

theorem value_cons (acc : ℕ) (b : UInt8) (s : List UInt8) :
    value acc (b :: s) = value (acc * 10 + (b.toNat - 48)) s := by
  rw [value, value, List.foldl_cons]

theorem le_value (acc : ℕ) (s : List UInt8) : acc ≤ value acc s := by
  induction s generalizing acc with
  | nil => exact Nat.le_refl acc
  | cons b s ih =>
    rw [value_cons]
    exact Nat.le_trans (by omega) (ih _)

theorem value_digit {d : ℕ} (acc : ℕ) (h : d < 10) : value acc [digit d] = acc * 10 + d := by
  rw [value_cons, toNat_digit h, Nat.add_sub_cancel_left]
  rfl

/-- The digits of a number, read from the most significant one, fold back to the number. -/
theorem value_digits (l : List ℕ) (h : ∀ d ∈ l, d < 10) :
    value 0 (l.reverse.map digit) = Nat.ofDigits 10 l := by
  induction l with
  | nil => rfl
  | cons d l ih =>
    have hd := h d (by simp)
    rw [List.reverse_cons, List.map_append, value_append, ih fun e he => h e (by simp [he]),
      Nat.ofDigits_cons, List.map_singleton, value_digit _ hd]
    omega

theorem value_nat (n : ℕ) : value 0 (nat n) = n := by
  unfold nat
  split
  · subst_vars
    rfl
  · rw [value_digits _ fun d hd => Nat.digits_lt_base (by omega) hd, Nat.ofDigits_digits]

/-- A run of digits is canonical: not empty, and without a leading zero unless it is the text of zero. -/
def Canonical (s : List UInt8) : Prop :=
  s ≠ [] ∧ (∀ b ∈ s, isDigit b = true) ∧ (s.head? = some zero → s = [zero])

theorem canonical_nat (n : ℕ) : Canonical (nat n) := by
  refine ⟨nat_ne_nil n, nat_digits n, fun h => ?_⟩
  by_cases hn : n = 0
  · simp [nat, hn]
  · exact absurd h (head?_nat hn)

/-- The digits of a text, the least significant one first. -/
def digitsOf (s : List UInt8) : List ℕ := (s.map fun b => b.toNat - 48).reverse

section DigitsOf
variable {s : List UInt8}

theorem digitsOf_lt (hs : ∀ b ∈ s, isDigit b = true) : ∀ d ∈ digitsOf s, d < 10 := by
  intro d hd
  simp only [digitsOf, List.mem_reverse, List.mem_map] at hd
  obtain ⟨b, hb, rfl⟩ := hd
  have := isDigit_iff.mp (hs b hb)
  omega

theorem map_digitsOf (hs : ∀ b ∈ s, isDigit b = true) : (digitsOf s).reverse.map digit = s := by
  simp only [digitsOf, List.reverse_reverse, List.map_map]
  conv_rhs => rw [← List.map_id s]
  exact List.map_congr_left fun b hb => digit_of_isDigit (hs b hb)

theorem value_eq_ofDigits (hs : ∀ b ∈ s, isDigit b = true) : value 0 s = Nat.ofDigits 10 (digitsOf s) := by
  rw [← value_digits _ (digitsOf_lt hs), map_digitsOf hs]

theorem digits_value (hs : ∀ b ∈ s, isDigit b = true) (hz : s.head? ≠ some zero) :
    Nat.digits 10 (value 0 s) = digitsOf s := by
  rw [value_eq_ofDigits hs]
  refine Nat.digits_ofDigits 10 (by omega) _ (digitsOf_lt hs) fun hne h0 => ?_
  -- The most significant digit is the first byte, which is no zero.
  cases s with
  | nil => exact hne rfl
  | cons b t =>
    simp only [digitsOf, List.map_cons, List.reverse_cons, List.getLast_append_singleton] at h0
    have hb := isDigit_iff.mp (hs b (by simp))
    refine hz (congrArg some (UInt8.toNat_inj.mp ?_))
    simp [zero]
    omega

end DigitsOf

/-- A canonical run of digits is the text of the number it denotes. -/
theorem nat_value {s : List UInt8} (h : Canonical s) : nat (value 0 s) = s := by
  obtain ⟨hne, hs, hhead⟩ := h
  by_cases hz : s.head? = some zero
  · rw [hhead hz]
    rfl
  · have hdigits := digits_value hs hz
    have hpos : value 0 s ≠ 0 := by
      intro h0
      rw [h0, Nat.digits_zero] at hdigits
      have hnil := map_digitsOf hs
      rw [← hdigits] at hnil
      exact hne hnil.symm
    rw [nat, if_neg hpos, hdigits, map_digitsOf hs]

theorem canonical_iff {s : List UInt8} : Canonical s ↔ ∃ n, s = nat n :=
  ⟨fun h => ⟨_, (nat_value h).symm⟩, by rintro ⟨n, rfl⟩; exact canonical_nat n⟩

/-! ### Reading integers -/

/-- The integer that a text denotes: digits, after a minus sign or not. -/
def readInt : List UInt8 → Option ℤ
  | [] => none
  | b :: s =>
    if b = minus then if s ≠ [] ∧ s.all isDigit then some (-(value 0 s : ℤ)) else none
    else if (b :: s).all isDigit then some (value 0 (b :: s) : ℤ) else none

theorem head_nat_ne_minus {b : UInt8} {s : List UInt8} {n : ℕ} (h : nat n = b :: s) : b ≠ minus := by
  rintro rfl
  have := nat_digits n minus (h ▸ List.mem_cons_self)
  rw [minus_not_digit] at this
  cases this

theorem readInt_int (x : ℤ) : readInt (int x) = some x := by
  have hall : (nat x.natAbs).all isDigit = true := List.all_eq_true.mpr (nat_digits _)
  unfold int
  split
  · have hne := nat_ne_nil x.natAbs
    simp only [readInt, if_true, ne_eq, hne, not_false_eq_true, hall, and_self, value_nat]
    congr 1
    omega
  · cases hn : nat x.natAbs with
    | nil => exact absurd hn (nat_ne_nil _)
    | cons b s =>
      rw [readInt, if_neg (head_nat_ne_minus hn), ← hn, if_pos hall, value_nat]
      congr 1
      omega

/-- The text of an integer: a canonical run of digits, after a minus sign only if it is not zero. -/
def CanonicalInt (s : List UInt8) : Prop := Canonical s ∨ ∃ t, s = minus :: t ∧ Canonical t ∧ t ≠ [zero]

theorem canonicalInt_iff {s : List UInt8} : CanonicalInt s ↔ ∃ x, s = int x := by
  constructor
  · rintro (h | ⟨t, rfl, h, hne⟩)
    · obtain ⟨n, rfl⟩ := canonical_iff.mp h
      exact ⟨n, by rw [int, if_neg (by omega), Int.natAbs_natCast]⟩
    · obtain ⟨n, rfl⟩ := canonical_iff.mp h
      have hn : n ≠ 0 := by
        rintro rfl
        exact hne rfl
      exact ⟨-n, by rw [int, if_pos (by omega), Int.natAbs_neg, Int.natAbs_natCast]⟩
  · rintro ⟨x, rfl⟩
    unfold int
    split
    · refine .inr ⟨_, rfl, canonical_nat _, fun hz => ?_⟩
      have hval := value_nat x.natAbs
      rw [hz] at hval
      have : value 0 [zero] = 0 := rfl
      omega
    · exact .inl (canonical_nat _)

theorem mem_int {x : ℤ} {b : UInt8} (h : b ∈ int x) : b = minus ∨ isDigit b = true := by
  unfold int at h
  split at h
  · rcases List.mem_cons.mp h with rfl | h
    · exact .inl rfl
    · exact .inr (nat_digits _ b h)
  · exact .inr (nat_digits _ b h)

end Decimal
