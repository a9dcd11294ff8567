import MemKey.Allocation
import MemKey.Theorems.Counter

/-! When the buffers are large enough. Every size adds room for a sign and the digits that `ndigits` counts; it
    counts none in the least `int`. The size for a string is an `int` itself: from 2^31-17 bytes on it wraps, mostly to
    a negative number, for which the program exits, but a length of 2^32 and more may wrap to a small one. -/

namespace MemKey
open Decimal

/-- The size that `reply_string` computes is negative. -/
def StringExits (s : Bytes) : Prop := wrap32 s.length < -8 ∨ 2 ^ 31 - 17 ≤ wrap32 s.length

instance (s : Bytes) : Decidable (StringExits s) := by
  unfold StringExits
  infer_instance

/-- The program exits at the buffer for the reply of an element. -/
def ElementExits (s : Bytes) : Prop := isNumber (scanned s) = false ∧ StringExits s

instance (s : Bytes) : Decidable (ElementExits s) := by
  unfold ElementExits
  infer_instance

/-- An array reply has a large enough buffer for the element. -/
def ElementFits (s : Bytes) : Prop :=
  if isNumber (scanned s) then strtoi (scanned s) ≠ -2 ^ 31 else s.length + 17 < 2 ^ 31

instance (s : Bytes) : Decidable (ElementFits s) := by
  unfold ElementFits
  infer_instance

/-- The same for all elements up to the one at which the program exits. -/
def ElementsFit (arr : List Bytes) : Prop := ∀ s ∈ arr.takeWhile fun s => ¬ElementExits s, ElementFits s

instance (arr : List Bytes) : Decidable (ElementsFit arr) := by
  unfold ElementsFit
  infer_instance

section Allocation
variable {x n : Int} {s res : Bytes} {arr : List (Option Bytes)} {b : Alloc} {bs : List Alloc}

/-- What wrapping takes off. -/
theorem wrap32_add_mul (x : Int) : ∃ k, x = wrap32 x + 2 ^ 32 * k := ⟨x.bdiv (2 ^ 32), (Int.bmod_add_bdiv x _).symm⟩

theorem Alloc.fits_iff (h : 0 ≤ b.requested) : b.Fits ↔ b.written ≤ b.requested :=
  or_iff_right (by rw [Exits]; omega)

theorem allFit_cons (h : 0 ≤ b.requested) : AllFit (b :: bs) ↔ b.written ≤ b.requested ∧ AllFit bs :=
  or_iff_right (by rw [Alloc.Exits]; omega)

theorem ndigits_nonneg (hx : FitsInt x) : 0 ≤ ndigits x := by
  by_cases hmin : x = -2 ^ 31
  · rw [hmin, ndigits_min]
  · rw [ndigits_eq hmin hx.1]
    exact Int.natCast_nonneg _

theorem ndigits_le_iff (hx : FitsInt x) (hne : x ≠ -2 ^ 31) (k : ℕ) : ndigits x ≤ k ↔ x.natAbs < 10 ^ k := by
  rw [ndigits_eq hne hx.1, Nat.cast_le, Nat.digits_length_le_iff (by decide)]

/-! ### Numbers -/

theorem intostrAlloc_fits (hx : FitsInt x) : (intostrAlloc x).Fits ↔ x ≠ -2 ^ 31 := by
  have hnonneg := ndigits_nonneg hx
  rw [← length_intostr_le_iff hx, Alloc.fits_iff (by rw [intostrAlloc]; dsimp only; omega), intostrAlloc]
  push_cast
  omega

theorem length_replyInteger (x : Int) : (replyInteger x).length = (intostr x).length + 3 := by
  simp [replyInteger, crlf, str]

theorem replyIntegerAlloc_requested (hx : FitsInt x) : 0 ≤ (replyIntegerAlloc x).requested := by
  have hnonneg := ndigits_nonneg hx
  rw [replyIntegerAlloc]
  dsimp only
  omega

theorem replyIntegerAlloc_le (hx : FitsInt x) :
    (replyIntegerAlloc x).written ≤ (replyIntegerAlloc x).requested ↔ x ≠ -2 ^ 31 := by
  rw [← length_intostr_le_iff hx, replyIntegerAlloc, length_replyInteger]
  push_cast
  omega

theorem replyIntegerAlloc_fits (hx : FitsInt x) : (replyIntegerAlloc x).Fits ↔ x ≠ -2 ^ 31 := by
  rw [Alloc.fits_iff (replyIntegerAlloc_requested hx), replyIntegerAlloc_le hx]

theorem replyErrArgcAlloc_fits (hx : FitsInt x) (expected : String) :
    (replyErrArgcAlloc x expected).Fits ↔ x ≠ -2 ^ 31 := by
  have hpre : (str "-ERR wrong number of arguments (given ").length = 38 := by decide
  have hmid : (str ", expected ").length = 11 := by decide
  have hend : (str ")").length = 1 := by decide
  have hcrlf : crlf.length = 2 := by decide
  have hnonneg := ndigits_nonneg hx
  rw [← length_intostr_le_iff hx, Alloc.fits_iff (by rw [replyErrArgcAlloc]; dsimp only; omega), replyErrArgcAlloc]
  simp only [List.length_append, hpre, hmid, hend, hcrlf]
  push_cast
  omega

/-! ### Strings -/

theorem length_stringText (s : Bytes) : (stringText s).length = s.length + (intostr (wrap32 s.length)).length + 5 := by
  have hdollar : (str "$").length = 1 := by decide
  have hcrlf : crlf.length = 2 := by decide
  simp only [stringText, List.length_append, hdollar, hcrlf]
  omega

/-! The length of a string that the server receives fits an `int`, and the texts are then those of the replies. -/

theorem wrap32_natCast {n : ℕ} (h : n < 2 ^ 31) : wrap32 n = n := wrap32_eq (by omega) (by omega)

theorem stringText_eq (h : s.length < 2 ^ 31) : stringText s = replyString (some s) := by
  rw [stringText, wrap32_natCast h, replyString]

theorem scanned_eq (h : s.length < 2 ^ 31) : scanned s = s := by
  rw [scanned, wrap32_natCast h, Int.toNat_natCast, List.take_length]

theorem elementText_eq (h : s.length < 2 ^ 31) : elementText s = replyElement s := by
  rw [elementText, scanned_eq h, stringText_eq h, replyElement]

/-- The size is negative exactly if the length as an `int` is below -8 or close to the end of the `int`s. -/
theorem replyStringAlloc_exits (s : Bytes) : (replyStringAlloc s).Exits ↔ StringExits s := by
  have hfits : FitsInt (wrap32 s.length) := ⟨le_wrap32 _, wrap32_lt _⟩
  rw [Alloc.Exits, StringExits, replyStringAlloc]
  generalize wrap32 s.length = n at hfits
  dsimp only
  obtain ⟨hlo, hhi⟩ := hfits
  by_cases hmin : n = -2 ^ 31
  · subst hmin
    rw [ndigits_min, wrap32_eq (by omega) (by omega)]
    omega
  · have hnonneg := ndigits_nonneg ⟨hlo, hhi⟩
    have hone := ndigits_le_iff ⟨hlo, hhi⟩ hmin 1
    have htwo := ndigits_le_iff ⟨hlo, hhi⟩ hmin 2
    have hnine := ndigits_le_iff ⟨hlo, hhi⟩ hmin 9
    have hten := ndigits_le_iff ⟨hlo, hhi⟩ hmin 10
    have hzero := ndigits_le_iff ⟨hlo, hhi⟩ hmin 0
    by_cases hbig : 2 ^ 31 - 17 ≤ n
    · -- The number has ten digits, and the sum leaves the `int`s.
      obtain ⟨k, hk⟩ := wrap32_add_mul (n + ndigits n + 7)
      have hlt := wrap32_lt (n + ndigits n + 7)
      omega
    · rw [wrap32_eq (by omega) (by omega)]
      omega

theorem replyStringAlloc_le (h : ¬StringExits s) :
    (replyStringAlloc s).written ≤ (replyStringAlloc s).requested ↔ s.length + 17 < 2 ^ 31 := by
  rw [StringExits, not_or] at h
  have hfits : FitsInt (wrap32 s.length) := ⟨le_wrap32 _, wrap32_lt _⟩
  have hmin : wrap32 s.length ≠ -2 ^ 31 := by omega
  have hnonneg := ndigits_nonneg hfits
  have hten := (ndigits_le_iff hfits hmin 10).mpr (by have := hfits.1; have := hfits.2; omega)
  have htext := length_intostr_le hmin hfits.1
  rw [replyStringAlloc, length_stringText]
  dsimp only
  rw [wrap32_eq (x := wrap32 s.length + ndigits (wrap32 s.length) + 7) (by omega) (by omega)]
  by_cases hs : s.length < 2 ^ 31
  · have hlen : wrap32 s.length = s.length := wrap32_eq (by omega) (by omega)
    push_cast
    omega
  · -- The length as an `int` is less by 2^32 at least.
    obtain ⟨k, hk⟩ := wrap32_add_mul s.length
    push_cast
    omega

theorem replyStringAlloc_fits (s : Bytes) : (replyStringAlloc s).Fits ↔ StringExits s ∨ s.length + 17 < 2 ^ 31 := by
  rw [Alloc.Fits, replyStringAlloc_exits]
  by_cases h : StringExits s
  · exact iff_of_true (.inl h) (.inl h)
  · rw [or_iff_right h, or_iff_right h, replyStringAlloc_le h]

/-! ### Arrays -/

theorem elementAlloc_exits (s : Bytes) : (elementAlloc s).Exits ↔ ElementExits s := by
  unfold elementAlloc ElementExits
  by_cases hs : isNumber (scanned s) = true
  · have hnonneg := replyIntegerAlloc_requested (strtoi_range (scanned s))
    rw [if_pos hs, Alloc.Exits, hs]
    simp [hnonneg]
  · rw [if_neg hs, replyStringAlloc_exits]
    exact (and_iff_right (by simpa using hs)).symm

theorem elementAlloc_le (h : ¬ElementExits s) :
    (elementAlloc s).written ≤ (elementAlloc s).requested ↔ ElementFits s := by
  unfold elementAlloc ElementFits
  by_cases hs : isNumber (scanned s) = true
  · rw [if_pos hs, if_pos hs]
    exact replyIntegerAlloc_le (strtoi_range (scanned s))
  · rw [if_neg hs, if_neg hs]
    exact replyStringAlloc_le fun hexits => h ⟨by simpa using hs, hexits⟩

/-- The buffers of the elements are large enough, and so are the ones after them if the program gets there. -/
theorem arrayAllocs_fit {cells : List (Option Bytes)} :
    AllFit (arrayAllocs res cells ++ bs) ↔
      ElementsFit cells.reduceOption ∧ ((∀ s ∈ cells.reduceOption, ¬ElementExits s) → AllFit bs) := by
  induction cells generalizing res with
  | nil => simp [arrayAllocs, ElementsFit]
  | cons e cells ih =>
    have hgrown : AllFit (⟨res.length + (cellText e).length + 1, (res ++ cellText e).length + 1⟩ ::
        (arrayAllocs (res ++ cellText e) cells ++ bs)) ↔ AllFit (arrayAllocs (res ++ cellText e) cells ++ bs) := by
      rw [allFit_cons (by positivity), List.length_append]
      exact and_iff_right (by push_cast; exact le_rfl)
    rw [arrayAllocs, List.append_assoc, List.cons_append]
    cases e with
    | none =>
      rw [List.reduceOption_cons_of_none]
      exact hgrown.trans ih
    | some s =>
      rw [List.reduceOption_cons_of_some, ElementsFit, List.takeWhile_cons, List.forall_mem_cons]
      rw [show cellAllocs (some s) = [elementAlloc s] from rfl, List.singleton_append, AllFit, elementAlloc_exits, hgrown,
        ih]
      by_cases hs : ElementExits s
      · rw [if_neg (by simpa using hs)]
        refine iff_of_true (.inl hs) ⟨List.forall_mem_nil _, ?_⟩
        rintro ⟨hne, -⟩
        exact absurd hs hne
      · rw [elementAlloc_le hs, if_pos (by simpa using hs), List.forall_mem_cons]
        simp only [hs, false_or, not_false_eq_true, true_and, and_assoc, ElementsFit]

theorem replyArrayNAllocs_fit (arr : List (Option Bytes)) (hn : FitsInt n) :
    AllFit (replyArrayNAllocs arr n) ↔ n ≠ -2 ^ 31 ∧ ElementsFit (arr.take n.toNat).reduceOption := by
  have hnonneg := ndigits_nonneg hn
  have hhead : (str "*" ++ intostr n ++ crlf).length + 1 ≤ ndigits n + 5 ↔ n ≠ -2 ^ 31 := by
    have hstar : (str "*").length = 1 := by decide
    have hcrlf : crlf.length = 2 := by decide
    rw [← length_intostr_le_iff hn, List.length_append, List.length_append, hstar, hcrlf]
    push_cast
    omega
  have harray : AllFit (arrayAllocs (str "*" ++ intostr n ++ crlf) (arr.take n.toNat) ++ []) ↔ _ := arrayAllocs_fit
  rw [List.append_nil] at harray
  rw [replyArrayNAllocs, allFit_cons (by dsimp only; omega), harray]
  refine and_congr (by push_cast; exact hhead) (and_iff_left fun _ => trivial)

theorem replyArrayAllocs_fit (arr : List Bytes) :
    AllFit (replyArrayAllocs (some arr)) ↔
      ElementsFit arr ∧ ((∀ s ∈ arr, ¬ElementExits s) → wrap32 arr.length ≠ -2 ^ 31) := by
  have hn : FitsInt (wrap32 arr.length) := ⟨le_wrap32 _, wrap32_lt _⟩
  have hnonneg := ndigits_nonneg hn
  have hlast (res : Bytes) : AllFit [⟨res.length + ndigits (wrap32 arr.length) + 5,
      (str "*" ++ intostr (wrap32 arr.length) ++ crlf ++ res).length + 1⟩] ↔ wrap32 arr.length ≠ -2 ^ 31 := by
    have hstar : (str "*").length = 1 := by decide
    have hcrlf : crlf.length = 2 := by decide
    rw [allFit_cons (by dsimp only; omega), ← length_intostr_le_iff hn]
    simp only [List.length_append, hstar, hcrlf, AllFit, and_true]
    push_cast
    omega
  have hcells : (arr.map some).reduceOption = arr := by
    rw [List.reduceOption, List.filterMap_map]
    exact List.filterMap_some
  rw [replyArrayAllocs, List.cons_append, allFit_cons (by decide), arrayAllocs_fit, hcells, hlast]
  exact and_iff_right (by decide)

/-- If all lengths fit an `int`, the last buffer of `reply_array` takes the reply. -/
theorem replyArrayAllocs_reply {arr : List Bytes} (hs : ∀ s ∈ arr, s.length < 2 ^ 31) (harr : arr.length < 2 ^ 31) :
    ∃ bs b, replyArrayAllocs (some arr) = bs ++ [b] ∧ b.written = (replyArray (some arr)).length + 1 := by
  have htext : arr.flatMap elementText = (arr.map element).flatMap Resp.Scalar.encode := by
    rw [List.flatMap_map]
    refine List.flatMap_congr fun s hmem => ?_
    rw [elementText_eq (hs s hmem), replyElement_eq]
  refine ⟨_, _, rfl, ?_⟩
  dsimp only
  rw [htext, wrap32_natCast harr, replyArray_some_eq, Resp.Reply.encode, List.length_map]
  rfl

/-- Each function asks for enough bytes, or the program exits, exactly if it prints no least `int` and, as far as it
    gets, no string whose length wraps to a size that is not negative but too small. -/
theorem buffers_large_enough {given : Int} (hx : FitsInt x) (hgiven : FitsInt given) (hn : FitsInt n) (s : Bytes)
    (arr : List (Option Bytes)) (strings : List Bytes) (expected : String) :
    ((intostrAlloc x).Fits ↔ x ≠ -2 ^ 31) ∧ ((replyIntegerAlloc x).Fits ↔ x ≠ -2 ^ 31) ∧
    ((replyStringAlloc s).Fits ↔ StringExits s ∨ s.length + 17 < 2 ^ 31) ∧
    (AllFit (replyArrayAllocs (some strings)) ↔
      ElementsFit strings ∧ ((∀ s ∈ strings, ¬ElementExits s) → wrap32 strings.length ≠ -2 ^ 31)) ∧
    (AllFit (replyArrayNAllocs arr n) ↔ n ≠ -2 ^ 31 ∧ ElementsFit (arr.take n.toNat).reduceOption) ∧
    ((replyErrArgcAlloc given expected).Fits ↔ given ≠ -2 ^ 31) :=
  ⟨intostrAlloc_fits hx, replyIntegerAlloc_fits hx, replyStringAlloc_fits s, replyArrayAllocs_fit strings,
    replyArrayNAllocs_fit arr hn, replyErrArgcAlloc_fits hgiven expected⟩

end Allocation

/-- A negative number, a string, and arrays with text, numbers and a NULL. -/
theorem buffers_large_enough_array : (intostrAlloc (-7)).Fits ∧ (replyIntegerAlloc (-7)).Fits ∧
    (replyStringAlloc (str "abc")).Fits ∧ AllFit (replyArrayAllocs (some [str "a", str "12"])) ∧
    AllFit (replyArrayNAllocs [some (str "x"), none, some (str "-5")] 3) ∧ (replyErrArgcAlloc 3 "0..2").Fits := by
  have hx : FitsInt (-7) := by decide
  have hthree : FitsInt 3 := by decide
  have h := buffers_large_enough hx hthree hthree (str "abc") [some (str "x"), none, some (str "-5")]
    [str "a", str "12"] "0..2"
  exact ⟨h.1.mpr (by decide), h.2.1.mpr (by decide), h.2.2.1.mpr (.inr (by decide)),
    h.2.2.2.1.mpr (by decide), h.2.2.2.2.1.mpr (by decide), h.2.2.2.2.2.mpr (by decide)⟩

/-- `DECR a` after `SET a -2147483647` writes 12 bytes into a buffer of 2, and 15 into one of 5. -/
theorem buffer_too_small : ∃ ht ht', interpret .wrap (htableInit htBaseSize) ⟨.SET, [str "a", str "-2147483647"]⟩ =
      .ok (ht, replyString (some (str "OK"))) ∧
    interpret .wrap ht ⟨.DECR, [str "a"]⟩ = .ok (ht', replyInteger (-2 ^ 31)) ∧
    intostrAlloc (-2 ^ 31) = ⟨2, 12⟩ ∧ ¬(intostrAlloc (-2 ^ 31)).Fits ∧
    replyIntegerAlloc (-2 ^ 31) = ⟨5, 15⟩ ∧ ¬(replyIntegerAlloc (-2 ^ 31)).Fits := by
  have hread : readInt (str "-2147483647") = some (-2147483647) := by decide
  have hsearch : htableSearch .wrap (oneString 0 (str "a") (str "-2147483647")) (str "a") =
      .ok (some ⟨.STR_T, str "a", .str (str "-2147483647")⟩) := rfl
  have hdecr := execStep_text hsearch hread (by decide) .DECR (-1)
  rw [show wrap32 (-2147483647 + -1) = -2 ^ 31 by decide] at hdecr
  have hstore (x : Int) : storeNumber .wrap (oneString 0 (str "a") (str "-2147483647")) (str "a") x =
      .ok (oneString 0 (str "a") (intostr x), replyInteger x) := rfl
  have hintostr : intostrAlloc (-2 ^ 31) = ⟨2, 12⟩ := by decide +kernel
  have hreply : replyIntegerAlloc (-2 ^ 31) = ⟨5, 15⟩ := by decide +kernel
  refine ⟨_, _, rfl, hdecr.trans (hstore _), hintostr, ?_, hreply, ?_⟩
  · rw [hintostr, Alloc.fits_iff (by decide)]
    decide
  · rw [hreply, Alloc.fits_iff (by decide)]
    decide

end MemKey
