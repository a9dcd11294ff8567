import Mathlib.Data.ZMod.Basic
import Mathlib.FieldTheory.Finite.Basic
import MemKey.Lib.Probing

/-! Double hashing: the probes of a path lie a fixed step apart, modulo the number of slots. -/

namespace Stride
open Probing

variable {α β : Type} {n home step ix i : ℕ} {view : ℕ → Option β} {stop : β → Bool} {b : β} {slots : List (Slot α)}
  {c : Slot α}

/-- Probe `i` of the path that starts at `home`. -/
def probe (n home step i : ℕ) : ℕ := (home + i * step) % n

def path (n home step i : ℕ) : Option ℕ := some (probe n home step i)

/-- Modulo a prime, a path with a step other than 0 comes to every slot. -/
theorem covers (hp : n.Prime) (home : ℕ) (hs : step % n ≠ 0) (hix : ix < n) : ∃ i < n, probe n home step i = ix := by
  have : Fact n.Prime := ⟨hp⟩
  have hstep : (step : ZMod n) ≠ 0 := fun h => hs (Nat.mod_eq_zero_of_dvd ((ZMod.natCast_eq_zero_iff _ _).mp h))
  refine ⟨(((ix : ZMod n) - home) / step).val, ZMod.val_lt _, ?_⟩
  have hcast : ((home + (((ix : ZMod n) - home) / step).val * step : ℕ) : ZMod n) = (ix : ℕ) := by
    push_cast
    rw [ZMod.natCast_zmod_val, div_mul_cancel₀ _ hstep, add_sub_cancel]
  have hmod := (ZMod.natCast_eq_natCast_iff' _ _ _).mp hcast
  rwa [Nat.mod_eq_of_lt hix] at hmod

/-- With step 0 the path never leaves its first slot. -/
theorem probe_of_zero (hs : step % n = 0) (home i : ℕ) : probe n home step i = home % n := by
  rw [probe, Nat.add_mod, Nat.mul_mod, hs, Nat.mul_zero, Nat.zero_mod, Nat.add_zero, Nat.mod_mod]

theorem look_path {home step : ℕ} (h : slots[probe n home step i]? = some c) :
    look (path n home step) slots i = some (probe n home step i, c) := look_eq_some.mpr ⟨rfl, h⟩

theorem look_path_isSome (hp : n.Prime) (hlen : slots.length = n) (home step i : ℕ) :
    (look (path n home step) slots i).isSome := by
  have hlt : probe n home step i < slots.length := by
    rw [hlen]
    exact Nat.mod_lt _ hp.pos
  rw [look_path (List.getElem?_eq_getElem hlt)]
  rfl

/-- A loop that sees the same again and again does not stop. -/
theorem walk_miss (hb : stop b = false) (hview : ∀ j, view j = some b) (i n : ℕ) : walk view stop i n = .miss := by
  induction n generalizing i with
  | zero => rfl
  | succ n ih =>
    rw [walk, hview i]
    dsimp only
    rw [if_neg (by simp [hb])]
    exact ih (i + 1)

/-- In a table with a prime number of slots and a free one, a loop along such a path stops unless its step is 0 and its
    first slot does not stop it. -/
theorem walk_miss_iff (stop : ℕ × Slot α → Bool) (hp : n.Prime) (hlen : slots.length = n) (home step : ℕ)
    (hstop : ∀ ix c, c.vacant = true → stop (ix, c) = true)
    (hfree : ∃ (ix : ℕ) (c : Slot α), slots[ix]? = some c ∧ c.vacant = true) :
    walk (look (path n home step) slots) stop 0 n = .miss ↔
      step % n = 0 ∧ ∃ c, slots[home % n]? = some c ∧ stop (home % n, c) = false := by
  have hin := look_path_isSome hp hlen home step
  constructor
  · intro hmiss
    have hzero : step % n = 0 := by
      by_contra hs
      obtain ⟨ix, c, hix, hc⟩ := hfree
      have hlt : ix < n := hlen ▸ (List.getElem?_eq_some_iff.mp hix).1
      obtain ⟨j, hj, rfl⟩ := covers hp home hs hlt
      obtain ⟨_, _, _, _, _, hhit⟩ := walk_of_stop stop hj (look_path hix) (hstop _ c hc) fun i _ => hin i
      cases hhit.symm.trans hmiss
    refine ⟨hzero, ?_⟩
    have hfirst := probe_of_zero hzero home 0
    obtain ⟨p, hlook⟩ := Option.isSome_iff_exists.mp (hin 0)
    obtain ⟨ix, c⟩ := p
    obtain ⟨hix, hc⟩ := look_eq_some.mp hlook
    obtain rfl : home % n = ix := hfirst.symm.trans (Option.some.inj hix)
    refine ⟨c, hc, Bool.eq_false_iff.mpr fun hs => ?_⟩
    obtain ⟨_, _, _, _, _, hhit⟩ := walk_of_stop stop hp.pos hlook hs fun i hi => nomatch hi
    cases hhit.symm.trans hmiss
  · rintro ⟨hzero, c, hc, hpass⟩
    refine walk_miss hpass (fun j => ?_) 0 n
    have hj := probe_of_zero hzero home j
    rw [look_path (hj ▸ hc), hj]

end Stride
